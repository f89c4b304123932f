import TapeScribe.Proofs.ReaderRun
import TapeScribe.Request

namespace TapeScribe

variable {modulus : Nat} {s : State}

namespace Request

/-- The last state is the same for all sizes of cells, though a delimiter is taken off a smaller
byte on the way. -/
theorem runs_or_blocks (request : Request) (options : Options) (hs : s.Blank) :
    (∃ t, ∀ modulus, 256 ≤ modulus →
      Runs modulus (fun _ _ => True) (request.program options).instructions s t) ∨
    ∃ t, ∀ modulus, 256 ≤ modulus →
      Blocks modulus (fun _ _ => True) (request.program options).instructions s t := by
  cases request with
  | print layout text =>
    cases layout with
    | allCells =>
      have hahead : ∀ k < (Utf8.encode text).length, s.cells (s.pointer + k) = 0 :=
        fun k _ => hs _ (Nat.le_add_right _ k)
      exact Or.inl ⟨_, fun _ hM => runs_printAllCells hM _ hahead fun _ _ _ _ _ _ _ => trivial⟩
    | oneCell =>
      have hcell : s.cell = 0 := hs _ (Nat.le_refl _)
      exact Or.inl ⟨_, fun _ hM => runs_printOneCell hM (fun _ _ _ _ _ => trivial) hcell _ _⟩
  | read stop echo leadIn =>
    rcases stop.splits_or_waits s.input with ⟨w, rest, h⟩ | h
    · exact Or.inl ⟨_, fun _ hM => Reader.runs_program hM hs _ h (allowsWithin_true _ _)⟩
    · exact Or.inr ⟨_, fun _ hM => Reader.blocks_program hM hs _ h⟩

/-- Every reader comes to its end or has to wait for input, and every printer to its end. -/
theorem exists_stopsOn (request : Request) (options : Options) (input : List UInt8) :
    ∃ why t, (why = .finished ∨ why = .blocked) ∧
      ∀ modulus, 256 ≤ modulus → (request.program options).StopsOn modulus input why t := by
  rcases request.runs_or_blocks options (State.blank_fresh input) with ⟨t, ht⟩ | ⟨t, ht⟩
  · exact ⟨_, t, Or.inl rfl, fun modulus hM => (ht modulus hM).stopsOn⟩
  · exact ⟨_, t, Or.inr rfl, fun modulus hM => (ht modulus hM).stopsOn⟩

end Request

/-- On wider cells a program stops for the same reason and in the same state as on bytes. -/
theorem request_runs_alike_on_wider_cells (hM : 256 ≤ modulus) (request : Request)
    (options : Options) (input : List UInt8) :
    (∃ why t, (why = .finished ∨ why = .blocked) ∧
      (request.program options).StopsWith input why t) ∧
    ∀ why t, (request.program options).StopsOn modulus input why t ↔
      (request.program options).StopsWith input why t := by
  obtain ⟨why, t, hwhy, hstop⟩ := request.exists_stopsOn options input
  have hwide := hstop modulus hM
  have hbyte := hstop 256 (Nat.le_refl _)
  refine ⟨⟨why, t, hwhy, hbyte⟩, ?_⟩
  intro why' t'
  constructor
  · intro h
    obtain ⟨rfl, rfl⟩ := hwide.unique h
    exact hbyte
  · intro h
    obtain ⟨rfl, rfl⟩ := hbyte.unique h
    exact hwide

/-- The first byte is smaller than the delimiter, which is then taken off beyond 0. -/
theorem request_runs_alike_on_wider_cells_past_zero :
    256 ≤ 65536 ∧
    ∃ t, ((Request.read (.delimiter 98) true "a").program {}).StopsOn 65536 [5, 200, 98, 7]
        .finished t ∧
      t.pointer = 3 ∧ t.input = [7] ∧ t.output = [97, 5, 200] ∧
      (List.range 5).map t.cells = [0, 5, 200, 0, 0] := by
  have hsplit : (Stop.delimiter 98).Splits [5, 200, 98, 7] [5, 200] [7] :=
    .delimiter [7] (show (98 : UInt8) ∉ [5, 200] by decide)
  have hbyte := Reader.stopsWith_finished ⟨.delimiter 98, some [97], none⟩ hsplit
  have hM : 256 ≤ 65536 := by decide
  obtain ⟨-, halike⟩ := request_runs_alike_on_wider_cells hM
    (.read (.delimiter 98) true "a") {} [5, 200, 98, 7]
  exact ⟨hM, _, (halike _ _).mpr hbyte, rfl, rfl, rfl, rfl⟩

end TapeScribe
