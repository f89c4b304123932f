import Mathlib.Algebra.GroupWithZero.Nat
import TapeScribe.Proofs.WellFormed

namespace TapeScribe

open Instruction

namespace Instruction

/-- The instructions that only count the cell under the pointer or print it. -/
def IsLocal (i : Instruction) : Prop :=
  i = .increment ∨ i = .decrement ∨ i = .output

instance (i : Instruction) : Decidable i.IsLocal :=
  inferInstanceAs (Decidable (i = .increment ∨ i = .decrement ∨ i = .output))

theorem IsLocal.isPlain {i : Instruction} (h : i.IsLocal) : i.IsPlain := by
  rcases h with rfl | rfl | rfl <;> decide

/-- Neither end of a byte is counted past. -/
def KeepsInByte (i : Instruction) (s : State) : Prop :=
  (i = .increment → s.cell < 255) ∧ (i = .decrement → 0 < s.cell)

end Instruction

theorem allowsCounting_keepsInByte (cell : Nat) : AllowsCounting KeepsInByte cell :=
  fun _ _ _ hup hdown => ⟨hup, hdown⟩

namespace State

/-- Nothing has changed but the cell under the pointer and the output. -/
structure AgreesAround (s t : State) : Prop where
  pointer : t.pointer = s.pointer
  input : t.input = s.input
  cells : ∀ i, i ≠ s.pointer → t.cells i = s.cells i

variable {modulus : Nat} {s t u : State}

theorem AgreesAround.refl (s : State) : s.AgreesAround s :=
  ⟨rfl, rfl, fun _ _ => rfl⟩

theorem AgreesAround.trans (h : s.AgreesAround t) (g : t.AgreesAround u) : s.AgreesAround u where
  pointer := g.pointer.trans h.pointer
  input := g.input.trans h.input
  cells := by
    intro i hi
    rw [g.cells i (h.pointer ▸ hi), h.cells i hi]

theorem agreesAround_write (s : State) (v : Nat) : s.AgreesAround (s.write v) where
  pointer := rfl
  input := rfl
  cells := fun _ hi => if_neg hi

theorem agreesAround_perform {i : Instruction} (hi : i.IsLocal)
    (h : s.perform modulus i = .ok t) : s.AgreesAround t := by
  rcases hi with rfl | rfl | rfl
  · cases h
    exact s.agreesAround_write _
  · cases h
    exact s.agreesAround_write _
  · cases h
    exact ⟨rfl, rfl, fun _ _ => rfl⟩

end State

namespace Machine

variable {modulus : Nat} {a b : Machine}

theorem agreesAround_step (hcode : ∀ i ∈ a.todo, i.IsLocal) (h : a.step modulus = .ok b) :
    (∀ i ∈ b.todo, i.IsLocal) ∧ a.state.AgreesAround b.state := by
  obtain ⟨todo, loops, s⟩ := a
  cases todo with
  | nil => cases h
  | cons i rest =>
    have hi : i.IsLocal := hcode i (by simp)
    rw [step_plain hi.isPlain] at h
    cases hp : s.perform modulus i with
    | error e =>
      rw [hp] at h
      cases h
    | ok t =>
      rw [hp] at h
      cases h
      exact ⟨fun j hj => hcode j (by simp [hj]), State.agreesAround_perform hi hp⟩

/-- Text without moves, loops and reading stays on its cell all the time. -/
theorem Reaches.agreesAround (hcode : ∀ i ∈ a.todo, i.IsLocal) (h : Reaches modulus a b) :
    (∀ i ∈ b.todo, i.IsLocal) ∧ a.state.AgreesAround b.state := by
  induction h with
  | refl => exact ⟨hcode, .refl _⟩
  | step _ hs ih =>
    obtain ⟨hrest, hagrees⟩ := ih
    obtain ⟨hnext, hstep⟩ := agreesAround_step hrest hs
    exact ⟨hnext, hagrees.trans hstep⟩

theorem Reaches.agreesAround_load {p : Program} {s : State} {m : Machine}
    (hcode : ∀ i ∈ p.instructions, i.IsLocal) (h : Reaches modulus (load p.text s) m) :
    s.AgreesAround m.state :=
  (h.agreesAround hcode).2

end Machine

theorem isLocal_of_mem_walk {a b : UInt8} {i : Instruction} (hi : i ∈ ofCode (walk a b)) :
    i.IsLocal := by
  rw [ofCode_walk] at hi
  rcases List.mem_append.mp hi with hi | hi
  · exact Or.inl (List.eq_of_mem_replicate hi)
  · exact Or.inr (Or.inl (List.eq_of_mem_replicate hi))

theorem isLocal_printOneCell (text : List UInt8) (clear : Bool) :
    ∀ i ∈ (printOneCell text clear).instructions, i.IsLocal := by
  intro i hi
  rw [instructions_printOneCell] at hi
  rcases List.mem_append.mp hi with hi | hi
  · obtain ⟨⟨cursor, b⟩, -, hi⟩ := List.mem_flatMap.mp hi
    rcases List.mem_append.mp hi with hi | hi
    · exact isLocal_of_mem_walk hi
    · exact Or.inr (Or.inr (List.mem_singleton.mp hi))
  · cases clear with
    | false => simp at hi
    | true => exact isLocal_of_mem_walk hi

/-- Through one cell that holds 0 a text is printed from any state, and nothing else is touched. -/
theorem one_cell_prints_in_place (text : List UInt8) (clear : Bool) {s : State}
    (h0 : s.cell = 0) :
    (∃ final, (Machine.load (printOneCell text clear).text s).Stops 256 final .finished ∧
      s.AgreesAround final.state ∧
      final.state.output = s.output ++ text.map UInt8.toNat ∧
      final.state.cell = (if clear then 0 else (text.getLastD 0).toNat) ∧
      (clear = true → final.state = { s with output := s.output ++ text.map UInt8.toNat })) ∧
    ∀ m, Machine.Reaches 256 (Machine.load (printOneCell text clear).text s) m →
      s.AgreesAround m.state ∧ ∀ i, m.todo.head? = some i → i.KeepsInByte m.state := by
  have hrun : Runs 256 KeepsInByte (printOneCell text clear).instructions s _ :=
    runs_printOneCell (by omega) (allowsCounting_keepsInByte _) h0 text clear
  have hlocal := isLocal_printOneCell text clear
  refine ⟨⟨_, hrun.stops, ?_, rfl, State.laid_cell .., ?_⟩, ?_⟩
  · exact hrun.stops.1.agreesAround_load hlocal
  · -- The same run with a closing walk down to 0 ends in a state that can be written out.
    rintro rfl
    have hclear : Runs 256 KeepsInByte (printOneCell text true).instructions s _ :=
      runs_printOneCell_clear (by omega) (allowsCounting_keepsInByte _) h0 text
    exact congrArg Machine.state (hrun.stops.unique hclear.stops).1
  · intro m hm
    exact ⟨hm.agreesAround_load hlocal, fun i hi => hrun.allowed_of_head hm hi⟩

theorem one_cell_prints_in_place_between_marks :
    (State.mk (fun i => if i = 2 then 0 else 9) 2 [7] [1]).cell = 0 ∧
    ∃ final, (Machine.load (printOneCell [255, 0, 3] true).text
        ⟨fun i => if i = 2 then 0 else 9, 2, [7], [1]⟩).Stops 256 final .finished ∧
      final.state = ⟨fun i => if i = 2 then 0 else 9, 2, [7], [1, 255, 0, 3]⟩ := by
  have h0 : (State.mk (fun i => if i = 2 then 0 else 9) 2 [7] [1]).cell = 0 := rfl
  obtain ⟨⟨final, hstop, -, -, -, hclear⟩, -⟩ := one_cell_prints_in_place [255, 0, 3] true h0
  exact ⟨h0, final, hstop, hclear rfl⟩

/-- How often an instruction is needed to print one byte on a cell of its own. -/
def buildCount (b : UInt8) : Instruction → Nat
  | .increment => b.toNat
  | .output | .right => 1
  | _ => 0

theorem count_buildInstructions (text : List UInt8) (i : Instruction) :
    (buildInstructions text).count i = (text.map fun b => buildCount b i).sum := by
  have hone (b : UInt8) :
      (ofCode (walk 0 b) ++ [Instruction.output] ++ [Instruction.right]).count i =
        buildCount b i := by
    rw [ofCode_walk, UInt8.toNat_zero, Nat.sub_zero, Nat.zero_sub, List.replicate_zero]
    cases i <;> simp [buildCount, List.count_replicate]
  rw [buildInstructions, List.count_flatMap]
  simp only [Function.comp_def, hone]

theorem count_text_printAllCells (text : List UInt8) (i : Instruction) :
    (printAllCells text).text.toList.count i.symbol =
      (text.map fun b => buildCount b i).sum := by
  rw [← Program.count_eq, Program.count_eq_instructions, instructions_printAllCells,
    count_buildInstructions]

theorem count_text_printAllCells_of_const (text : List UInt8) {i : Instruction} {n : Nat}
    (hi : ∀ b, buildCount b i = n) :
    (printAllCells text).text.toList.count i.symbol = text.length * n := by
  rw [count_text_printAllCells, List.map_congr_left (fun b _ => hi b), List.map_const',
    List.sum_replicate_nat]

theorem notMem_text_printAllCells (text : List UInt8) {i : Instruction}
    (hi : ∀ b, buildCount b i = 0) : i.symbol ∉ (printAllCells text).text.toList := by
  rw [← List.count_eq_zero, count_text_printAllCells_of_const text hi, Nat.mul_zero]

/-- With enough blank cells ahead a text is printed and left in them, and nothing else is
touched. -/
theorem all_cells_prints_and_stores (text : List UInt8) {s : State}
    (h0 : ∀ k < text.length, s.cells (s.pointer + k) = 0) :
    (∃ final, (Machine.load (printAllCells text).text s).Stops 256 final .finished ∧
      final.state.output = s.output ++ text.map UInt8.toNat ∧
      final.state.input = s.input ∧
      final.state.pointer = s.pointer + text.length ∧
      (∀ k (hk : k < text.length), final.state.cells (s.pointer + k) = text[k].toNat) ∧
      ∀ i, i < s.pointer ∨ s.pointer + text.length ≤ i → final.state.cells i = s.cells i) ∧
    (∀ m, Machine.Reaches 256 (Machine.load (printAllCells text).text s) m →
      ∀ i, m.todo.head? = some i → i.KeepsInByte m.state) ∧
    (∀ c ∈ ['-', '<', ',', '[', ']'], c ∉ (printAllCells text).text.toList) ∧
    (printAllCells text).text.toList.count '.' = text.length ∧
    (printAllCells text).text.toList.count '>' = text.length ∧
    (printAllCells text).text.toList.count '+' = (text.map UInt8.toNat).sum := by
  have hrun : Runs 256 KeepsInByte (printAllCells text).instructions s _ :=
    runs_printAllCells (by omega) text h0 (fun _ _ => allowsCounting_keepsInByte _)
  have hconst (i : Instruction) (hi : ∀ b, buildCount b i = 1) :
      (printAllCells text).text.toList.count i.symbol = text.length :=
    (count_text_printAllCells_of_const text hi).trans (Nat.mul_one _)
  refine ⟨⟨_, hrun.stops, rfl, rfl, by simp, ?_, ?_⟩, fun m hm i hi => hrun.allowed_of_head hm hi,
    ?_, ?_, ?_, ?_⟩
  · intro k hk
    rw [State.laid_cells_add]
    simp [hk]
  · rintro i (hi | hi)
    · exact State.laid_cells_left hi
    · obtain ⟨k, rfl⟩ := Nat.exists_eq_add_of_le hi
      have hbehind := State.laid_cells_behind
        { s with output := s.output ++ text.map UInt8.toNat } (text.map UInt8.toNat) k
      rwa [List.length_map] at hbehind
  · intro c hc
    change c ∈ [Instruction.decrement, .left, .input, .loopStart, .loopEnd].map symbol at hc
    obtain ⟨i, hi, rfl⟩ := List.mem_map.mp hc
    apply notMem_text_printAllCells
    intro b
    cases i <;> first | rfl | simp at hi
  · exact hconst .output (fun _ => rfl)
  · exact hconst .right (fun _ => rfl)
  · exact count_text_printAllCells text .increment

theorem all_cells_prints_and_stores_with_blank_byte :
    (∀ k < [72, 0, 255].length, (State.mk (fun i => if i < 4 then 5 else 0) 4 [] []).cells
      (4 + k) = 0) ∧
    ∃ final, (Machine.load (printAllCells [72, 0, 255]).text
        ⟨fun i => if i < 4 then 5 else 0, 4, [], []⟩).Stops 256 final .finished ∧
      final.state.output = [72, 0, 255] ∧ final.state.pointer = 7 ∧
      final.state.cells 3 = 5 ∧ final.state.cells 6 = 255 ∧
      (printAllCells [72, 0, 255]).text.toList.count '+' = 327 := by
  have h0 : ∀ k < [72, 0, 255].length,
      (State.mk (fun i => if i < 4 then 5 else 0) 4 [] []).cells (4 + k) = 0 := by
    intro k _
    have h4 : ¬4 + k < 4 := by omega
    simp [h4]
  obtain ⟨⟨final, hstop, hout, -, hpointer, hcells, hframe⟩, -, -, -, -, hplus⟩ :=
    all_cells_prints_and_stores [72, 0, 255] h0
  exact ⟨h0, final, hstop, hout, hpointer, hframe 3 (Or.inl (by decide)),
    hcells 2 (by decide), hplus⟩

end TapeScribe
