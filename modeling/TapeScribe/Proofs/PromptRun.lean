import TapeScribe.Prompt
import TapeScribe.Proofs.PrinterRun
import TapeScribe.Proofs.ScalarEncoding

namespace TapeScribe

open Instruction

namespace Prompt

theorem columns_of_encodes {scalars : List Nat} {text : List UInt8}
    (h : Utf8.Encodes scalars text) : columns text = scalars.length := by
  obtain ⟨s, rfl, rfl⟩ := Utf8.encodes_iff.mp h
  rw [columns_encode, List.length_map, String.length_toList]

/-- One byte that does not fit in makes every byte count for itself, those before it too. -/
theorem columns_of_not_wellFormed {text : List UInt8}
    (h : ¬Utf8.WellFormed (text.map UInt8.toNat)) : columns text = text.length := by
  have hnone : Utf8.decode? text = none := by
    rw [Utf8.decode?_eq_none_iff]
    intro s hs
    exact h (Utf8.exists_encodes_iff.mp ⟨_, Utf8.encodes_iff.mpr ⟨s, rfl, hs⟩⟩)
  rw [columns, hnone]

/-- A prompt shows its text and is then gone from the machine: only the output has grown. -/
theorem runs_program (text : List UInt8) {s : State} (h0 : s.cell = 0) :
    Runs 256 KeepsInByte (program text).instructions s
      { s with output := s.output ++ (text.map UInt8.toNat ++ List.replicate (columns text) 8) } := by
  have hrun : Runs 256 KeepsInByte (program text).instructions s _ :=
    runs_printOneCell_clear (by omega) (allowsCounting_keepsInByte _) h0 _
  rwa [List.map_append, List.map_replicate] at hrun

end Prompt

/-- On a blank cell the prompt is written and erased, by a backspace for each number that its bytes
encode or, if they encode none, for each byte. -/
theorem prompt_leaves_no_trace (text : List UInt8) {s : State} (h0 : s.cell = 0) :
    (∃ erased,
      (∃ final, (Machine.load (Prompt.program text).text s).Stops 256 final .finished ∧
        final.state = { s with
          output := s.output ++ (text.map UInt8.toNat ++ List.replicate erased 8) }) ∧
      (∀ scalars, Utf8.Encodes scalars text → erased = scalars.length) ∧
      ((∀ scalars, ¬Utf8.Encodes scalars text) → erased = text.length)) ∧
    ((∃ scalars, Utf8.Encodes scalars text) ↔ Utf8.WellFormed (text.map UInt8.toNat)) := by
  have hrun := Prompt.runs_program text h0
  refine ⟨⟨Prompt.columns text, ⟨_, hrun.stops, rfl⟩, fun _ h => Prompt.columns_of_encodes h, ?_⟩,
    Utf8.exists_encodes_iff⟩
  intro hnone
  apply Prompt.columns_of_not_wellFormed
  rw [← Utf8.exists_encodes_iff]
  exact not_exists.mpr hnone

/-- The last byte is no character, so the three bytes of the first one are erased one by one. -/
theorem prompt_leaves_no_trace_with_stray_byte :
    (State.mk (fun i => if i = 2 then 0 else 9) 2 [7] [1]).cell = 0 ∧
    (∀ scalars, ¬Utf8.Encodes scalars [0xE2, 0x82, 0xAC, 0xFF]) ∧
    ∃ final, (Machine.load (Prompt.program [0xE2, 0x82, 0xAC, 0xFF]).text
        ⟨fun i => if i = 2 then 0 else 9, 2, [7], [1]⟩).Stops 256 final .finished ∧
      final.state = ⟨fun i => if i = 2 then 0 else 9, 2, [7],
        [1, 0xE2, 0x82, 0xAC, 0xFF, 8, 8, 8, 8]⟩ := by
  have h0 : (State.mk (fun i => if i = 2 then 0 else 9) 2 [7] [1]).cell = 0 := rfl
  obtain ⟨⟨erased, ⟨final, hstop, hfinal⟩, -, herased⟩, -⟩ :=
    prompt_leaves_no_trace [0xE2, 0x82, 0xAC, 0xFF] h0
  have hnone : ∀ scalars, ¬Utf8.Encodes scalars [0xE2, 0x82, 0xAC, 0xFF] := by
    have hdecode : Utf8.decode? [0xE2, 0x82, 0xAC, 0xFF] = none := by decide
    intro scalars h
    obtain ⟨s, -, hs⟩ := Utf8.encodes_iff.mp h
    exact Utf8.decode?_eq_none_iff.mp hdecode s hs
  obtain rfl := herased hnone
  exact ⟨h0, hnone, final, hstop, hfinal⟩

end TapeScribe
