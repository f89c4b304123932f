import TapeScribe.Proofs.PrinterRun

namespace TapeScribe

open Instruction

/-- How far the values rise from each to the next, all together. -/
def climb (start : Nat) (values : List Nat) : Nat :=
  (((start :: values).zip values).map fun q => q.2 - q.1).sum

/-- How far the values fall from each to the next, all together. -/
def descent (start : Nat) (values : List Nat) : Nat :=
  (((start :: values).zip values).map fun q => q.1 - q.2).sum

/-- Code that counts and prints a cell: the value at the start, what is printed, the value at the
end. -/
inductive Walks : Nat → List Instruction → List Nat → Nat → Prop
  | done (cell) : Walks cell [] [] cell
  | up {cell code printed final} : Walks (cell + 1) code printed final →
      Walks cell (.increment :: code) printed final
  | down {cell code printed final} : Walks cell code printed final →
      Walks (cell + 1) (.decrement :: code) printed final
  | print {cell code printed final} : Walks cell code printed final →
      Walks cell (.output :: code) (cell :: printed) final

variable {start x cell final : Nat} {values printed : List Nat} {code : List Instruction}

theorem climb_nil : climb start [] = 0 := rfl

theorem climb_cons : climb start (x :: values) = x - start + climb x values := rfl

theorem descent_nil : descent start [] = 0 := rfl

theorem descent_cons : descent start (x :: values) = start - x + descent x values := rfl

/-- Rises and falls come to the way from the first value to the last. -/
theorem start_add_climb (start : Nat) (values : List Nat) :
    start + climb start values = descent start values + values.getLastD start := by
  induction values generalizing start with
  | nil => simp [climb_nil, descent_nil]
  | cons x values ih =>
    have hrest := ih x
    rw [climb_cons, descent_cons, List.getLastD_cons]
    omega

theorem Walks.climb_le (h : Walks cell code printed final) :
    climb cell printed ≤ code.count .increment := by
  induction h with
  | done => simp [climb_nil]
  | @up cell code printed final _ ih =>
    rw [List.count_cons_self]
    cases printed with
    | nil => simp [climb_nil]
    | cons x printed =>
      rw [climb_cons] at ih ⊢
      omega
  | @down cell code printed final _ ih =>
    rw [List.count_cons_of_ne (by decide)]
    cases printed with
    | nil => simp [climb_nil]
    | cons x printed =>
      rw [climb_cons] at ih ⊢
      omega
  | print _ ih =>
    rw [List.count_cons_of_ne (by decide), climb_cons]
    omega

/-- Beside the falls between the printed values there is the one from the last of them to the end. -/
theorem Walks.descent_le (h : Walks cell code printed final) :
    descent cell printed + (printed.getLastD cell - final) ≤ code.count .decrement := by
  induction h with
  | done => simp [descent_nil]
  | @up cell code printed final _ ih =>
    rw [List.count_cons_of_ne (by decide)]
    cases printed with
    | nil =>
      rw [List.getLastD_nil, descent_nil] at ih ⊢
      omega
    | cons x printed =>
      rw [List.getLastD_cons, descent_cons] at ih ⊢
      omega
  | @down cell code printed final _ ih =>
    rw [List.count_cons_self]
    cases printed with
    | nil =>
      rw [List.getLastD_nil, descent_nil] at ih ⊢
      omega
    | cons x printed =>
      rw [List.getLastD_cons, descent_cons] at ih ⊢
      omega
  | print _ ih =>
    rw [List.count_cons_of_ne (by decide), List.getLastD_cons, descent_cons]
    omega

theorem Walks.length_eq (h : Walks cell code printed final) :
    printed.length = code.count .output := by
  induction h with
  | done => rfl
  | up _ ih => rw [ih, List.count_cons_of_ne (by decide)]
  | down _ ih => rw [ih, List.count_cons_of_ne (by decide)]
  | print _ ih => rw [List.length_cons, ih, List.count_cons_self]

/-- A run of local instructions that goes past neither end of a byte is such a walk. -/
theorem exists_walks_of_stops {s : State} {m : Machine} (hs : s.cell ≤ 255)
    (hlocal : ∀ i ∈ code, i.IsLocal) (hstop : (Machine.mk code [] s).Stops 256 m .finished)
    (hkeeps : ∀ m, Machine.Reaches 256 ⟨code, [], s⟩ m →
      ∀ i, m.todo.head? = some i → i.KeepsInByte m.state) :
    ∃ printed, Walks s.cell code printed m.state.cell ∧ m.state.output = s.output ++ printed := by
  induction code generalizing s with
  | nil =>
    rcases hstop.1.head_cases with rfl | ⟨_, hstep, _⟩
    · exact ⟨[], .done _, by simp⟩
    · cases hstep
  | cons i code ih =>
    have hi : i.IsLocal := hlocal i (by simp)
    obtain ⟨hup, hdown⟩ : i.KeepsInByte s := hkeeps _ (.refl _) i rfl
    have hnext {t : State} (ht : s.perform 256 i = .ok t) (hcell : t.cell ≤ 255) :
        ∃ printed, Walks t.cell code printed m.state.cell ∧
          m.state.output = t.output ++ printed := by
      have hstep : Machine.step 256 ⟨i :: code, [], s⟩ = .ok ⟨code, [], t⟩ := by
        rw [Machine.step_plain hi.isPlain, ht]
        rfl
      have hreach := Machine.Reaches.step (.refl _) hstep
      exact ih hcell (fun j hj => hlocal j (by simp [hj])) (hreach.stops hstop)
        (fun m hm => hkeeps m (hreach.trans hm))
    have hwrite (v : Nat) : (s.write v).cell = v := if_pos rfl
    rcases hi with rfl | rfl | rfl
    · have hlt := hup rfl
      have hvalue : (s.write ((s.cell + 1) % 256)).cell = s.cell + 1 := by
        rw [hwrite]
        omega
      obtain ⟨printed, hwalks, hout⟩ := hnext rfl (by omega)
      exact ⟨printed, .up (hvalue ▸ hwalks), hout⟩
    · have hpos := hdown rfl
      have hvalue : s.cell = (s.write ((s.cell + (256 - 1)) % 256)).cell + 1 := by
        rw [hwrite]
        omega
      obtain ⟨printed, hwalks, hout⟩ := hnext rfl (by omega)
      exact ⟨printed, hvalue ▸ .down hwalks, hout⟩
    · obtain ⟨printed, hwalks, hout⟩ := hnext rfl hs
      exact ⟨s.cell :: printed, .print hwalks, by simpa using hout⟩

/-- Straight code within a byte that prints a text from a state, and leaves a 0 if it has to. -/
structure PrintsFrom (s : State) (text : List UInt8) (clear : Bool) (code : String) : Prop where
  symbols : ∀ c ∈ code.toList, c ∈ ['+', '-', '.']
  stops : ∃ final, (Machine.load code s).Stops 256 final .finished ∧
    final.state.output = s.output ++ text.map UInt8.toNat ∧ (clear = true → final.state.cell = 0)
  keepsInByte : ∀ m, Machine.Reaches 256 (Machine.load code s) m →
    ∀ i, m.todo.head? = some i → i.KeepsInByte m.state

theorem isLocal_iff_symbol {i : Instruction} : i.IsLocal ↔ i.symbol ∈ ['+', '-', '.'] := by
  cases i <;> simp [IsLocal, symbol]

theorem printsFrom_of_runs {p : Program} {s t : State} {text : List UInt8} {clear : Bool}
    (hrun : Runs 256 KeepsInByte p.instructions s t) (hspelled : Spelled p.text)
    (hlocal : ∀ i ∈ p.instructions, i.IsLocal)
    (hout : t.output = s.output ++ text.map UInt8.toNat) (hclear : clear = true → t.cell = 0) :
    PrintsFrom s text clear p.text where
  symbols := by
    intro c hc
    rw [← hspelled.map_symbol] at hc
    obtain ⟨i, hi, rfl⟩ := List.mem_map.mp hc
    exact isLocal_iff_symbol.mp (hlocal i hi)
  stops := ⟨_, hrun.stops, hout, hclear⟩
  keepsInByte := fun _ hm _ hi => hrun.allowed_of_head hm hi

theorem printsFrom_printOneCell (text : List UInt8) (clear : Bool) {s : State} (h0 : s.cell = 0) :
    PrintsFrom s text clear (printOneCell text clear).text := by
  have hrun : Runs 256 KeepsInByte (printOneCell text clear).instructions s _ :=
    runs_printOneCell (by omega) (allowsCounting_keepsInByte _) h0 text clear
  refine printsFrom_of_runs hrun (Printer.spelled_program _ _) (isLocal_printOneCell text clear) rfl
    ?_
  rintro rfl
  exact State.laid_cell ..

theorem PrintsFrom.exists_walks {s : State} {text : List UInt8} {clear : Bool} {code : String}
    (h : PrintsFrom s text clear code) (h0 : s.cell = 0) :
    ∃ final, Walks 0 (ofCode code) (text.map UInt8.toNat) final ∧ (clear = true → final = 0) := by
  obtain ⟨hsymbols, ⟨m, hstop, hout, hclear⟩, hkeeps⟩ := h
  have hlocal : ∀ i ∈ ofCode code, i.IsLocal := by
    intro i hi
    obtain ⟨c, hc, hci⟩ := List.mem_filterMap.mp hi
    rw [isLocal_iff_symbol, symbol_ofSymbol? hci]
    exact hsymbols c hc
  obtain ⟨printed, hwalks, hprinted⟩ := exists_walks_of_stops (by omega) hlocal hstop hkeeps
  rw [h0] at hwalks
  rw [hout] at hprinted
  rw [← List.append_cancel_left hprinted] at hwalks
  exact ⟨_, hwalks, hclear⟩

/-- How often an instruction is needed to print values one after the other on one cell. -/
def stepCount (start : Nat) (values : List Nat) : Instruction → Nat
  | .increment => climb start values
  | .decrement => descent start values
  | .output => values.length
  | _ => 0

theorem count_stepInstructions (cursor : UInt8) (text : List UInt8) (i : Instruction) :
    (stepInstructions cursor text).count i =
      stepCount cursor.toNat (text.map UInt8.toNat) i := by
  induction text generalizing cursor with
  | nil => cases i <;> rfl
  | cons b text ih =>
    have hcons : stepInstructions cursor (b :: text) =
        ofCode (walk cursor b) ++ [.output] ++ stepInstructions b text := rfl
    rw [hcons, List.count_append, ih, List.map_cons, ofCode_walk]
    cases i <;> simp [stepCount, climb_cons, descent_cons, List.count_replicate, Nat.add_comm]

theorem count_printOneCell (text : List UInt8) (clear : Bool) (i : Instruction) :
    (printOneCell text clear).count i = stepCount 0 (text.map UInt8.toNat) i +
      if clear = true ∧ i = .decrement then (text.getLastD 0).toNat else 0 := by
  rw [Program.count_eq_instructions, instructions_printOneCell, List.count_append,
    count_stepInstructions, UInt8.toNat_zero]
  cases clear with
  | false => simp
  | true => cases i <;> simp [ofCode_walk, List.count_replicate]

theorem size_printOneCell (text : List UInt8) (clear : Bool) :
    (printOneCell text clear).size = climb 0 (text.map UInt8.toNat) +
      (descent 0 (text.map UInt8.toNat) + if clear then (text.getLastD 0).toNat else 0) +
      text.length := by
  have hwellFormed : (printOneCell text clear).WellFormed 0 := Printer.wellFormed_program _ _ 0
  rw [hwellFormed.size_eq_counts, funext (count_printOneCell text clear)]
  simp [Instruction.all, stepCount]
  omega

/-- Code that prints a text on one cell counts up as far as it rises and down as far as it falls. -/
theorem PrintsFrom.size_le {s : State} {text : List UInt8} {clear : Bool} {code : String}
    (h : PrintsFrom s text clear code) (h0 : s.cell = 0) :
    (printOneCell text clear).size ≤ code.length := by
  obtain ⟨final, hwalks, hfinal⟩ := h.exists_walks h0
  have hup := hwalks.climb_le
  have hdown := hwalks.descent_le
  have hprint := hwalks.length_eq
  have hlast := List.getLastD_map (f := UInt8.toNat) (l := text) (a := 0)
  have hall := Program.sum_count_all (ofCode code)
  have hlength : (ofCode code).length ≤ code.toList.length := List.length_filterMap_le _ _
  rw [UInt8.toNat_zero] at hlast
  rw [List.length_map] at hprint
  rw [String.length_toList] at hlength
  simp only [Instruction.all, List.map_cons, List.map_nil, List.sum_cons, List.sum_nil] at hall
  rw [size_printOneCell]
  cases clear with
  | false =>
    simp only [Bool.false_eq_true, if_false]
    omega
  | true =>
    have hzero := hfinal rfl
    simp only [if_true]
    omega

/-- Printing through one cell takes the fewest instructions that straight code within a byte can do
with. -/
theorem one_cell_printing_is_shortest (text : List UInt8) (clear : Bool) :
    (∀ s : State, s.cell = 0 → PrintsFrom s text clear (printOneCell text clear).text ∧
      ∀ code, PrintsFrom s text clear code → (printOneCell text clear).size ≤ code.length) ∧
    (printOneCell text clear).count .increment = climb 0 (text.map UInt8.toNat) ∧
    (printOneCell text clear).count .decrement = descent 0 (text.map UInt8.toNat) +
      (if clear then (text.getLastD 0).toNat else 0) ∧
    (printOneCell text clear).count .output = text.length ∧
    (∀ i ∈ [Instruction.right, .left, .input, .loopStart, .loopEnd],
      (printOneCell text clear).count i = 0) ∧
    (clear = true →
      (printOneCell text clear).count .increment = (printOneCell text clear).count .decrement) := by
  have hcount := count_printOneCell text clear
  refine ⟨fun s h0 => ⟨printsFrom_printOneCell text clear h0, fun code h => h.size_le h0⟩, ?_, ?_,
    ?_, ?_, ?_⟩
  · simp [hcount, stepCount]
  · simp [hcount, stepCount]
  · simp [hcount, stepCount]
  · simp [hcount, stepCount]
  · rintro rfl
    have hway := start_add_climb 0 (text.map UInt8.toNat)
    have hlast := List.getLastD_map (f := UInt8.toNat) (l := text) (a := 0)
    rw [UInt8.toNat_zero] at hlast
    rw [hcount, hcount, if_neg (by simp), if_pos (by simp), stepCount, stepCount]
    omega

theorem one_cell_printing_is_shortest_against_detour :
    PrintsFrom (.fresh []) [1] true "++-.-" ∧ (printOneCell [1] true).size ≤ 5 := by
  have hrun : Runs 256 KeepsInByte (ofCode "++-.-") (.fresh []) _ :=
    .cons (.single (by decide) ⟨by decide, by decide⟩ rfl)
      (.cons (.single (by decide) ⟨by decide, by decide⟩ rfl)
        (.cons (.single (by decide) ⟨by decide, by decide⟩ rfl)
          (.cons (.single (by decide) ⟨by decide, by decide⟩ rfl)
            (.single (by decide) ⟨by decide, by decide⟩ rfl))))
  have hprints : PrintsFrom (.fresh []) [1] true "++-.-" :=
    printsFrom_of_runs (p := .ofList [⟨"detour", "++-.-"⟩]) hrun (by decide) (by decide) rfl
      (fun _ => rfl)
  exact ⟨hprints, ((one_cell_printing_is_shortest [1] true).1 (.fresh []) rfl).2 "++-.-" hprints⟩

end TapeScribe
