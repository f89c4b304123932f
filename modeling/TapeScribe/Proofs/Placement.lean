import TapeScribe.Proofs.CellWidth

namespace TapeScribe

variable {modulus : Nat}

namespace State

/-- What a run from `s` is like when the same run from the first cell of an empty tape is in `t`. -/
def beyond (s t : State) : State where
  cells := fun i => if i < s.pointer then s.cells i else t.cells (i - s.pointer)
  pointer := s.pointer + t.pointer
  input := t.input
  output := s.output ++ t.output

variable {s t : State}

@[simp]
theorem beyond_pointer (s t : State) : (s.beyond t).pointer = s.pointer + t.pointer :=
  rfl

theorem beyond_cells_left {i : Nat} (h : i < s.pointer) : (s.beyond t).cells i = s.cells i := by
  simp [beyond, h]

theorem beyond_cells_add (s t : State) (k : Nat) :
    (s.beyond t).cells (s.pointer + k) = t.cells k := by
  have h : ¬s.pointer + k < s.pointer := by omega
  simp [beyond, h]

@[simp]
theorem beyond_cell (s t : State) : (s.beyond t).cell = t.cell :=
  beyond_cells_add s t t.pointer

theorem beyond_fresh (hs : s.Blank) : s.beyond (.fresh s.input) = s := by
  refine eq_of_cells s.pointer (fun i hi => beyond_cells_left hi) ?_ rfl rfl (List.append_nil _)
  intro k
  rw [beyond_cells_add]
  exact (hs _ (Nat.le_add_right _ _)).symm

theorem beyond_write (s t : State) (v : Nat) : (s.beyond t).write v = s.beyond (t.write v) := by
  refine eq_of_cells s.pointer ?_ ?_ rfl rfl rfl
  · intro i hi
    have hne : i ≠ s.pointer + t.pointer := by omega
    rw [beyond_cells_left hi]
    simp [write, hne, beyond_cells_left hi]
  · intro k
    rw [beyond_cells_add]
    simp [write, beyond_cells_add]

/-- An instruction does the same at both places, unless the run from the first cell leaves the
tape. -/
theorem perform_beyond (s : State) {t : State} {i : Instruction}
    (h : t.perform modulus i ≠ .error .underflow) :
    (s.beyond t).perform modulus i = (t.perform modulus i).map s.beyond := by
  cases i with
  | right => rfl
  | left =>
    have h0 : t.pointer ≠ 0 := by
      intro h0
      simp [perform, h0] at h
    have hsub : s.pointer + t.pointer - 1 = s.pointer + (t.pointer - 1) := by omega
    simp [perform, h0, hsub, Except.map, beyond]
  | increment => simp [perform, beyond_write, Except.map]
  | decrement => simp [perform, beyond_write, Except.map]
  | output =>
    have hcell := beyond_cell s t
    rw [perform, hcell]
    simp [perform, Except.map, beyond]
  | input =>
    cases hi : t.input with
    | nil => simp [perform, beyond, hi, Except.map]
    | cons b rest =>
      have hw := beyond_write s { t with input := rest } b.toNat
      simpa [perform, beyond, hi, Except.map] using hw
  | loopStart => rfl
  | loopEnd => rfl

end State

namespace Machine

def beyond (s : State) (m : Machine) : Machine :=
  { m with state := s.beyond m.state }

variable {a b m final : Machine} {why : Halt}

theorem step_beyond (s : State) (h : m.step modulus ≠ .error .underflow) :
    (m.beyond s).step modulus = (m.step modulus).map (beyond s) := by
  obtain ⟨todo, loops, t⟩ := m
  cases todo with
  | nil => rfl
  | cons i rest =>
    by_cases hi : i.IsPlain
    · rw [step_plain hi] at h ⊢
      have hp : t.perform modulus i ≠ .error .underflow := by
        intro hu
        rw [hu] at h
        exact h rfl
      rw [beyond, step_plain hi, State.perform_beyond s hp]
      cases t.perform modulus i <;> rfl
    · cases i with
      | loopStart =>
        by_cases h0 : t.cell = 0
        · cases ha : afterLoop? 0 rest <;> simp [step, beyond, h0, ha, Except.map]
        · simp [step, beyond, h0, Except.map]
      | loopEnd =>
        cases loops with
        | nil => rfl
        | cons body outer => by_cases h0 : t.cell = 0 <;> simp [step, beyond, h0, Except.map]
      | _ => exact absurd (by decide) hi

theorem Reaches.beyond (s : State) (h : Reaches modulus a b) :
    Reaches modulus (a.beyond s) (b.beyond s) := by
  induction h with
  | refl => exact .refl _
  | @step b c _ hs ih =>
    have hok : b.step modulus ≠ .error .underflow := by
      intro hu
      cases hs.symm.trans hu
    have hstep := step_beyond s hok
    rw [hs] at hstep
    exact ih.step hstep

theorem Stops.beyond (s : State) (h : Stops modulus a final why) (hw : why ≠ .underflow) :
    Stops modulus (a.beyond s) (final.beyond s) why := by
  obtain ⟨hr, hstop⟩ := h
  have hok : final.step modulus ≠ .error .underflow := by
    intro hu
    cases hstop.symm.trans hu
    exact hw rfl
  refine ⟨hr.beyond s, ?_⟩
  rw [step_beyond s hok, hstop]
  rfl

/-- No machine that a run comes by leaves the tape, if the run does not stop there. -/
theorem Reaches.step_ne_underflow (h : Reaches modulus a b) (g : Stops modulus a final why)
    (hw : why ≠ .underflow) : b.step modulus ≠ .error .underflow := by
  intro hu
  obtain ⟨-, rfl⟩ := (h.stops g).unique ⟨.refl b, hu⟩
  exact hw rfl

/-- The run from the other place comes by nothing else than the run from the first cell does. -/
theorem Reaches.of_beyond (s : State) (g : Stops modulus a final why) (hw : why ≠ .underflow)
    (h : Reaches modulus (a.beyond s) m) : ∃ b, Reaches modulus a b ∧ m = b.beyond s := by
  generalize hstart : a.beyond s = start at h
  induction h with
  | refl => exact ⟨a, .refl a, hstart.symm⟩
  | @step c d _ hs ih =>
    obtain ⟨b, hb, rfl⟩ := ih
    rw [step_beyond s (hb.step_ne_underflow g hw)] at hs
    cases hn : b.step modulus with
    | error e =>
      rw [hn] at hs
      cases hs
    | ok next =>
      rw [hn] at hs
      cases hs
      exact ⟨next, hb.step hn, rfl⟩

theorem load_beyond (code : String) {s : State} (hs : s.Blank) :
    (load code (.fresh s.input)).beyond s = load code s := by
  unfold beyond load
  rw [State.beyond_fresh hs]

end Machine

/-- From any cell with blank cells ahead a program does what it does on an empty tape, and never
goes back behind that cell. -/
theorem request_runs_anywhere (request : Request) (options : Options) (s : State)
    (hs : s.Blank) :
    ∃ why t, (why = .finished ∨ why = .blocked) ∧
      (request.program options).StopsWith s.input why t ∧
      (∃ final, (Machine.load (request.program options).text s).Stops 256 final why ∧
        final.state = s.beyond t) ∧
      ∀ m, Machine.Reaches 256 (Machine.load (request.program options).text s) m →
        s.pointer ≤ m.state.pointer ∧ ∀ i < s.pointer, m.state.cells i = s.cells i := by
  obtain ⟨why, t, hwhy, hall⟩ := request.exists_stopsOn options s.input
  have hstop := hall 256 (Nat.le_refl _)
  have hw : why ≠ .underflow := by
    rintro rfl
    rcases hwhy with h | h <;> cases h
  obtain ⟨final, hfinal, hstate⟩ := id hstop
  have hload := Machine.load_beyond (request.program options).text hs
  refine ⟨why, t, hwhy, hstop, ⟨final.beyond s, ?_, ?_⟩, ?_⟩
  · rw [← hload]
    exact hfinal.beyond s hw
  · rw [← hstate]
    rfl
  · intro m hm
    rw [← hload] at hm
    obtain ⟨b, -, rfl⟩ := hm.of_beyond s hfinal hw
    exact ⟨Nat.le_add_right _ _, fun i hi => State.beyond_cells_left hi⟩

theorem request_runs_anywhere_behind_sevens :
    (State.mk (fun i => if i < 3 then 7 else 0) 3 [72, 10, 9] [1]).Blank ∧
    ∃ final, (Machine.load ((Request.read (.delimiter 10) true ">").program {}).text
        ⟨fun i => if i < 3 then 7 else 0, 3, [72, 10, 9], [1]⟩).Stops 256 final .finished ∧
      final.state.pointer = 5 ∧ final.state.input = [9] ∧ final.state.output = [1, 62, 72] ∧
      (List.range 7).map final.state.cells = [7, 7, 7, 0, 72, 0, 0] := by
  have hs : (State.mk (fun i => if i < 3 then 7 else 0) 3 [72, 10, 9] [1]).Blank := by
    intro i hi
    have h3 : ¬i < 3 := Nat.not_lt.2 hi
    simp [h3]
  have hsplit : (Stop.delimiter 10).Splits [72, 10, 9] [72] [9] :=
    .delimiter [9] (show (10 : UInt8) ∉ [72] by decide)
  obtain ⟨why, t, -, hstop, ⟨final, hfinal, hstate⟩, -⟩ :=
    request_runs_anywhere (.read (.delimiter 10) true ">") {} _ hs
  obtain ⟨rfl, rfl⟩ := hstop.unique
    (Reader.stopsWith_finished ⟨.delimiter 10, some [62], none⟩ hsplit)
  refine ⟨hs, final, hfinal, ?_⟩
  rw [hstate]
  exact ⟨rfl, rfl, rfl, rfl⟩

end TapeScribe
