import TapeScribe.Printer
import TapeScribe.Proofs.Tape

namespace TapeScribe

open Instruction

/-- Nothing is forbidden while the pointer is on a cell, but to count past either end of a byte. -/
def AllowsCounting (allowed : Instruction → State → Prop) (cell : Nat) : Prop :=
  ∀ i t, t.pointer = cell → (i = .increment → t.cell < 255) → (i = .decrement → 0 < t.cell) →
    allowed i t

theorem AllowsWithin.counting {allowed : Instruction → State → Prop} {first last cell : Nat}
    (h : AllowsWithin allowed first last) (hf : first ≤ cell) (hl : cell ≤ last) :
    AllowsCounting allowed cell :=
  fun i t ht _ _ => h i t (by omega) (by omega)

theorem ofCode_walk (a b : UInt8) :
    ofCode (walk a b) = List.replicate (b.toNat - a.toNat) .increment ++
      List.replicate (a.toNat - b.toNat) .decrement := by
  rw [walk, ofCode_append, ofCode_repeated, ofCode_repeated]

variable {modulus : Nat} {allowed : Instruction → State → Prop} {s : State}

theorem runs_walk (hM : 256 ≤ modulus) (ha : AllowsCounting allowed s.pointer) (a b : UInt8) :
    Runs modulus allowed (ofCode (walk a b)) (s.laid [] [a.toNat]) (s.laid [] [b.toNat]) := by
  have hla := a.toNat_lt
  have hlb := b.toNat_lt
  rw [ofCode_walk]
  rcases Nat.le_total a.toNat b.toNat with h | h
  · have hup := runs_increments (l := []) (r := []) (b.toNat - a.toNat)
      (show a.toNat < modulus by omega) (fun k hk => ha .increment (s.laid [] [_]) rfl (by
        intro _
        rw [State.laid_cell, Nat.mod_eq_of_lt (by omega)]
        omega) (by simp))
    rw [Nat.add_sub_cancel' h, Nat.mod_eq_of_lt (by omega)] at hup
    rw [Nat.sub_eq_zero_of_le h, List.replicate_zero, List.append_nil]
    exact hup
  · have hdown := runs_decrements (l := []) (r := []) (a.toNat - b.toNat)
      (show a.toNat < modulus by omega) (fun k hk => ha .decrement (s.laid [] [_]) rfl (by simp) (by
        intro _
        rw [State.laid_cell, sub_mod_of_le (by omega) (by omega)]
        omega))
    rw [sub_mod_of_le (by omega) (by omega), Nat.sub_sub_self h] at hdown
    rw [Nat.sub_eq_zero_of_le h, List.replicate_zero, List.nil_append]
    exact hdown

/-- The instructions that step a cell through a text, from the byte that it holds. -/
def stepInstructions (cursor : UInt8) (text : List UInt8) : List Instruction :=
  ((cursor :: text).zip text).flatMap fun q => ofCode (walk q.1 q.2) ++ [.output]

theorem runs_stepInstructions (hM : 256 ≤ modulus) (ha : AllowsCounting allowed s.pointer)
    (cursor : UInt8) (text : List UInt8) :
    Runs modulus allowed (stepInstructions cursor text) (s.laid [] [cursor.toNat])
      ({ s with output := s.output ++ text.map UInt8.toNat }.laid []
        [(text.getLastD cursor).toNat]) := by
  induction text generalizing cursor s with
  | nil => simpa [stepInstructions] using Runs.nil (s.laid [] [cursor.toNat])
  | cons b text ih =>
    have hwalk := runs_walk hM ha cursor b
    have hout : Runs modulus allowed [.output] (s.laid [] [b.toNat])
        ({ s with output := s.output ++ [b.toNat] }.laid [] [b.toNat]) :=
      runs_output (ha _ _ rfl (by simp) (by simp))
    have hrest := ih (s := { s with output := s.output ++ [b.toNat] }) ha b
    have hall := (hwalk.append hout).append hrest
    rw [List.getLastD_cons]
    simpa [stepInstructions] using hall

theorem instructions_printOneCell (text : List UInt8) (clear : Bool) :
    (printOneCell text clear).instructions =
      stepInstructions 0 text ++ if clear then ofCode (walk (text.getLastD 0) 0) else [] := by
  have hsteps : (Printer.stepSegments text).flatMap (fun s => ofCode s.code) =
      stepInstructions 0 text := by
    rw [Printer.stepSegments, stepInstructions, List.flatMap_assoc]
    rfl
  rw [printOneCell, Printer.program, Program.instructions_ofList, Printer.segments]
  cases clear <;> simp [hsteps, Printer.clearSegment]

theorem runs_printOneCell (hM : 256 ≤ modulus) (ha : AllowsCounting allowed s.pointer)
    (h0 : s.cell = 0) (text : List UInt8) (clear : Bool) :
    Runs modulus allowed (printOneCell text clear).instructions s
      ({ s with output := s.output ++ text.map UInt8.toNat }.laid []
        [if clear then 0 else (text.getLastD 0).toNat]) := by
  have hsteps := runs_stepInstructions hM ha 0 text
  rw [UInt8.toNat_zero, ← h0, State.laid_cell_self] at hsteps
  rw [instructions_printOneCell]
  cases clear with
  | false => simpa using hsteps
  | true =>
    have hclear := runs_walk (s := { s with output := s.output ++ text.map UInt8.toNat }) hM ha
      (text.getLastD 0) 0
    exact hsteps.append hclear

/-- Printing with clearing changes nothing but the output. -/
theorem runs_printOneCell_clear (hM : 256 ≤ modulus) (ha : AllowsCounting allowed s.pointer)
    (h0 : s.cell = 0) (text : List UInt8) :
    Runs modulus allowed (printOneCell text true).instructions s
      { s with output := s.output ++ text.map UInt8.toNat } := by
  have h := runs_printOneCell hM ha h0 text true
  rw [if_pos rfl, ← h0] at h
  rwa [← State.laid_cell_self { s with output := s.output ++ text.map UInt8.toNat }]

/-- The instructions that build each byte of a text in a cell of its own. -/
def buildInstructions (text : List UInt8) : List Instruction :=
  text.flatMap fun b => ofCode (walk 0 b) ++ [.output] ++ [.right]

theorem instructions_printAllCells (text : List UInt8) :
    (printAllCells text).instructions = buildInstructions text := by
  have hnext : ofCode ".>" = [.output, .right] := by decide
  rw [printAllCells, Printer.program, Program.instructions_ofList, Printer.segments,
    Printer.allCellsSegments, buildInstructions, List.flatMap_assoc]
  simp [hnext]

/-- As long as the cells ahead are blank each byte is counted up from 0 and left behind. -/
theorem runs_buildInstructions (hM : 256 ≤ modulus) (text : List UInt8)
    (h0 : ∀ k < text.length, s.cells (s.pointer + k) = 0)
    (ha : ∀ k ≤ text.length, AllowsCounting allowed (s.pointer + k)) :
    Runs modulus allowed (buildInstructions text) s
      ({ s with output := s.output ++ text.map UInt8.toNat }.laid (text.map UInt8.toNat) []) := by
  induction text generalizing s with
  | nil => simpa [buildInstructions] using Runs.nil s
  | cons b text ih =>
    have hcell : s.cell = 0 := h0 0 (by simp)
    have hhere : AllowsCounting allowed s.pointer := ha 0 (by simp)
    have hwalk := runs_walk hM hhere 0 b
    rw [UInt8.toNat_zero, ← hcell, State.laid_cell_self] at hwalk
    have hout : Runs modulus allowed [.output] (s.laid [] [b.toNat])
        ({ s with output := s.output ++ [b.toNat] }.laid [] [b.toNat]) :=
      runs_output (hhere _ _ rfl (by simp) (by simp))
    have hright : Runs modulus allowed [.right]
        ({ s with output := s.output ++ [b.toNat] }.laid [] [b.toNat])
        ({ s with output := s.output ++ [b.toNat] }.laid [b.toNat] []) :=
      runs_right (hhere _ _ rfl (by simp) (by simp))
    have hfar : ∀ k < text.length,
        ({ s with output := s.output ++ [b.toNat] }.laid [b.toNat] []).cells
          (s.pointer + 1 + k) = 0 := by
      intro k hk
      have hbehind :=
        State.laid_cells_behind { s with output := s.output ++ [b.toNat] } [b.toNat] k
      have hblank := h0 (k + 1) (by simpa using hk)
      rw [← Nat.add_assoc, Nat.add_right_comm] at hblank
      exact hbehind.trans hblank
    have hahead : ∀ k ≤ text.length, AllowsCounting allowed (s.pointer + 1 + k) := by
      intro k hk
      have hnext := ha (k + 1) (by simpa using hk)
      rwa [← Nat.add_assoc, Nat.add_right_comm] at hnext
    have hrest := ih (s := { s with output := s.output ++ [b.toNat] }.laid [b.toNat] []) hfar hahead
    have hend := State.laid_laid
      { s with output := s.output ++ [b.toNat] ++ text.map UInt8.toNat } [b.toNat]
      (text.map UInt8.toNat) []
    have hall := ((hwalk.append hout).append hright).append (hend ▸ hrest)
    rw [List.append_assoc s.output] at hall
    exact hall

theorem runs_printAllCells (hM : 256 ≤ modulus) (text : List UInt8)
    (h0 : ∀ k < text.length, s.cells (s.pointer + k) = 0)
    (ha : ∀ k ≤ text.length, AllowsCounting allowed (s.pointer + k)) :
    Runs modulus allowed (printAllCells text).instructions s
      ({ s with output := s.output ++ text.map UInt8.toNat }.laid (text.map UInt8.toNat) []) := by
  rw [instructions_printAllCells]
  exact runs_buildInstructions hM text h0 ha

end TapeScribe
