import Mathlib.Order.Bounds.Basic
import TapeScribe.Proofs.ReaderRun

namespace TapeScribe

/-- The pointer is on the cell at some time of the run. -/
def Program.Visits (p : Program) (input : List UInt8) (cell : Nat) : Prop :=
  ∃ m, Machine.Reaches 256 (Machine.load p.text (.fresh input)) m ∧ m.state.pointer = cell

/-- The run stays on a tape of the given length. -/
def Program.FitsOn (p : Program) (input : List UInt8) (tapeLength : Nat) : Prop :=
  ∀ cell, p.Visits input cell → cell < tapeLength

/-- How many bytes are stored in a run that comes to its end. -/
def Stop.storedCount : Stop → List UInt8 → Nat
  | count n, _ => n
  | delimiter d, input => input.idxOf d

theorem Stop.Splits.storedCount_eq {stop : Stop} {input w rest : List UInt8}
    (h : stop.Splits input w rest) : stop.storedCount input = w.length := by
  cases h with
  | count w rest => rfl
  | delimiter rest hw => simp [Stop.storedCount, List.idxOf_append_of_notMem hw]

theorem Stop.reserved_pos (stop : Stop) (echoes : Bool) : 1 ≤ stop.reserved echoes := by
  cases stop with
  | count n => exact Nat.le_refl 1
  | delimiter d => cases echoes <;> simp [Stop.reserved]

namespace Program

variable {p : Program} {input : List UInt8} {t : State}

theorem visits_of_runs {allowed : Instruction → State → Prop} {code rest : List Instruction}
    (hp : p.instructions = code ++ rest) (h : Runs 256 allowed code (.fresh input) t) :
    p.Visits input t.pointer := by
  have hpath := h rest []
  rw [← hp] at hpath
  exact ⟨_, hpath.reaches, rfl⟩

/-- A bound that is kept at every instruction and at the end is kept all the time. -/
theorem visits_le_of_runs {bound cell : Nat}
    (h : Runs 256 (fun _ s => s.pointer ≤ bound) p.instructions (.fresh input) t)
    (ht : t.pointer ≤ bound) (hv : p.Visits input cell) : cell ≤ bound := by
  obtain ⟨m, hm, rfl⟩ := hv
  rcases h.allowed_or_ends hm with ⟨_, -, hle⟩ | rfl
  · exact hle
  · exact ht

end Program

namespace Reader

variable {input w rest : List UInt8}

theorem visits_le (r : Reader) (h : r.stop.Splits input w rest) {cell : Nat}
    (hv : r.program.Visits input cell) : cell ≤ (r.stop.readCells r.echoes w).length := by
  have hrun : Runs 256 (fun _ s => s.pointer ≤ (r.stop.readCells r.echoes w).length)
      r.program.instructions (.fresh input) _ :=
    r.runs_program (by omega) (State.blank_fresh input) h
      (fun _ t _ ht => by simpa [State.fresh] using ht)
  refine Program.visits_le_of_runs hrun ?_ hv
  simpa [State.fresh] using r.length_finalLeft_le w

/-- The furthest cell is reached at the end of the reading, before anything is echoed. -/
theorem visits_last (r : Reader) (h : r.stop.Splits input w rest) :
    r.program.Visits input (r.stop.readCells r.echoes w).length := by
  have hrun : Runs 256 (fun _ _ => True) _ (.fresh input) _ :=
    r.runs_promptAndReading (by omega) (State.blank_fresh input) h (allowsWithin_true _ _)
  have hv := Program.visits_of_runs r.instructions_program hrun
  simpa [State.fresh] using hv

theorem fitsOn_iff (r : Reader) (h : r.stop.Splits input w rest) (tapeLength : Nat) :
    r.program.FitsOn input tapeLength ↔ w.length + r.stop.reserved r.echoes ≤ tapeLength := by
  have hlen := r.stop.length_readCells r.echoes w
  constructor
  · intro hfits
    have hlast := hfits _ (r.visits_last h)
    omega
  · intro hroom cell hv
    have hle := r.visits_le h hv
    omega

end Reader

/-- The furthest cell of a reader's run to its end, and so the tape lengths that do for the run. -/
theorem capacity_is_exact (r : Reader) {input : List UInt8} {t : State}
    (h : r.program.StopsWith input .finished t) :
    IsGreatest {cell | r.program.Visits input cell}
      (r.stop.storedCount input + r.stop.reserved r.echoes - 1) ∧
    ∀ tapeLength,
      (1 ≤ r.stop.storedCount input →
        (r.program.FitsOn input tapeLength ↔
          r.stop.storedCount input ≤ r.capacity tapeLength)) ∧
      (r.stop.storedCount input = 0 →
        (r.program.FitsOn input tapeLength ↔ r.stop.reserved r.echoes ≤ tapeLength)) := by
  obtain ⟨w, rest, hsplit⟩ := r.splits_of_finished h
  have hlen := r.stop.length_readCells r.echoes w
  have hpos := r.stop.reserved_pos r.echoes
  have hlast : w.length + r.stop.reserved r.echoes - 1 =
      (r.stop.readCells r.echoes w).length := by omega
  rw [hsplit.storedCount_eq, hlast]
  refine ⟨⟨r.visits_last hsplit, fun cell hv => r.visits_le hsplit hv⟩, ?_⟩
  intro tapeLength
  have hfits := r.fitsOn_iff hsplit tapeLength
  unfold Reader.capacity
  constructor
  · intro hstored
    rw [hfits]
    omega
  · intro hstored
    rw [hfits]
    omega

theorem capacity_is_exact_for_lines :
    (∃ t, (Reader.mk (.delimiter 10) (some []) none).program.StopsWith [72, 105, 10] .finished t) ∧
    IsGreatest {cell | (Reader.mk (.delimiter 10) (some []) none).program.Visits [72, 105, 10] cell}
      4 ∧
    ((Reader.mk (.delimiter 10) (some []) none).program.FitsOn [72, 105, 10] 5 ↔
      2 ≤ (Reader.mk (.delimiter 10) (some []) none).capacity 5) ∧
    (∃ t, (Reader.mk (.delimiter 10) none none).program.StopsWith [10] .finished t) ∧
    IsGreatest {cell | (Reader.mk (.delimiter 10) none none).program.Visits [10] cell} 1 ∧
    ((Reader.mk (.delimiter 10) none none).program.FitsOn [10] 2 ↔ 2 ≤ 2) := by
  have hline : (Stop.delimiter 10).Splits [72, 105, 10] [72, 105] [] :=
    .delimiter [] (show (10 : UInt8) ∉ [72, 105] by decide)
  have hempty : (Stop.delimiter 10).Splits [10] [] [] := .delimiter [] List.not_mem_nil
  have hlineRun := Reader.stopsWith_finished ⟨.delimiter 10, some [], none⟩ hline
  have hemptyRun := Reader.stopsWith_finished ⟨.delimiter 10, none, none⟩ hempty
  obtain ⟨hlast, hfits⟩ := capacity_is_exact ⟨.delimiter 10, some [], none⟩ hlineRun
  obtain ⟨hlast', hfits'⟩ := capacity_is_exact ⟨.delimiter 10, none, none⟩ hemptyRun
  exact ⟨⟨_, hlineRun⟩, hlast, (hfits 5).1 (by decide), ⟨_, hemptyRun⟩, hlast',
    (hfits' 2).2 (by decide)⟩

end TapeScribe
