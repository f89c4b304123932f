import TapeScribe.Proofs.Echo

namespace TapeScribe

namespace Stop

/-- The input of a run that ends: the bytes that are stored and those that are left. -/
inductive Splits : Stop → List UInt8 → List UInt8 → List UInt8 → Prop
  | count (w rest) : Splits (count w.length) (w ++ rest) w rest
  | delimiter {d w} (rest) : d ∉ w → Splits (delimiter d) (w ++ d :: rest) w rest

/-- The input is too short, or the delimiter is not in it. -/
def Waits : Stop → List UInt8 → Prop
  | count n, input => input.length < n
  | delimiter d, input => d ∉ input

theorem splits_or_waits (stop : Stop) (input : List UInt8) :
    (∃ w rest, stop.Splits input w rest) ∨ stop.Waits input := by
  cases stop with
  | count n =>
    rcases Nat.lt_or_ge input.length n with h | h
    · exact Or.inr h
    · have hsplit := Splits.count (input.take n) (input.drop n)
      rw [List.length_take_of_le h, List.take_append_drop] at hsplit
      exact Or.inl ⟨_, _, hsplit⟩
  | delimiter d =>
    by_cases h : d ∈ input
    · obtain ⟨w, rest, rfl, hw⟩ := List.eq_append_cons_of_mem h
      exact Or.inl ⟨w, rest, .delimiter rest hw⟩
    · exact Or.inr h

/-- The blank cells in front of the stored bytes. -/
def margin (echoes : Bool) : Stop → List Nat
  | count _ => []
  | delimiter _ => if echoes then [0] else []

/-- The cells left of the pointer when the reading has ended. -/
def readCells (echoes : Bool) (w : List UInt8) : Stop → List Nat
  | count n => (count n).margin echoes ++ w.map UInt8.toNat
  | delimiter d => (delimiter d).margin echoes ++ w.map UInt8.toNat ++ [0]

/-- The pointer ends on the last of the cells that a reader has for itself. -/
theorem length_readCells (stop : Stop) (echoes : Bool) (w : List UInt8) :
    (stop.readCells echoes w).length + 1 = w.length + stop.reserved echoes := by
  cases stop with
  | count n => simp [readCells, margin, reserved]
  | delimiter d => cases echoes <;> simp [readCells, margin, reserved]

/-- The cells right of the stored bytes, from the pointer on, when more input is waited for. -/
def waitCells : Stop → List UInt8 → List Nat
  | count n, input => List.replicate (n - input.length) 1
  | delimiter _, _ => [0, 0]

/-- What the echo prints: the bytes before their first 0, or those behind their last. -/
def shown : Stop → List UInt8 → List UInt8
  | count _, w => w.takeWhile (· ≠ 0)
  | delimiter _, w => w.rtakeWhile (· ≠ 0)

theorem shown_eq_self_iff (stop : Stop) (w : List UInt8) : stop.shown w = w ↔ 0 ∉ w := by
  cases stop with
  | count n => exact takeWhile_eq_self_iff_zero_notMem w
  | delimiter d => exact rtakeWhile_eq_self_iff_zero_notMem w

/-- The cells left of the pointer after the echo, which writes to none of them. -/
def echoLeft : Stop → List UInt8 → List Nat
  | count _, w => (w.takeWhile (· ≠ 0)).map UInt8.toNat
  | delimiter _, w => 0 :: w.map UInt8.toNat

def echoRight : Stop → List UInt8 → List Nat
  | count _, w => (w.dropWhile (· ≠ 0) ++ [0]).map UInt8.toNat
  | delimiter _, _ => [0, 0]

theorem length_echoLeft_le (stop : Stop) (w : List UInt8) :
    (stop.echoLeft w).length ≤ (stop.readCells true w).length := by
  cases stop with
  | count n => simpa [echoLeft, readCells, margin] using (List.takeWhile_sublist _).length_le
  | delimiter d => simp [echoLeft, readCells, margin]

end Stop

variable {modulus : Nat} {allowed : Instruction → State → Prop} {s : State} {stop : Stop}
  {w rest : List UInt8}

theorem runs_reading (hM : 256 ≤ modulus) (hs : s.Blank) (echoes : Bool)
    (h : stop.Splits s.input w rest)
    (ha : AllowsWithin allowed s.pointer (s.pointer + (stop.readCells echoes w).length)) :
    Runs modulus allowed (stop.readInstructions echoes) s
      ({ s with input := rest }.laid (stop.readCells echoes w) [0]) := by
  generalize hi : s.input = input at h
  cases h with
  | count w rest =>
    have ha' : AllowsWithin allowed s.pointer (s.pointer + w.length) :=
      ha.mono (Nat.le_refl _) (by simp [Stop.readCells, Stop.margin])
    exact runs_countReading hM hs w hi echoes ha'
  | delimiter rest hw => exact runs_delimiterReadInstructions hM hs echoes hw hi ha

theorem blocks_reading (hM : 256 ≤ modulus) (hs : s.Blank) (echoes : Bool)
    (h : stop.Waits s.input) :
    Blocks modulus (fun _ _ => True) (stop.readInstructions echoes) s
      ({ s with input := [] }.laid (stop.margin echoes ++ s.input.map UInt8.toNat)
        (stop.waitCells s.input)) := by
  cases stop with
  | count n => exact blocks_countReading hM hs h echoes (allowsWithin_true _ _)
  | delimiter d =>
    exact blocks_delimiterReadInstructions hM hs echoes h (allowsWithin_true _ _)

theorem runs_echo {input : List UInt8} (h : stop.Splits input w rest)
    (ha : AllowsWithin allowed s.pointer (s.pointer + (stop.readCells true w).length)) :
    Runs modulus allowed stop.echoInstructions (s.laid (stop.readCells true w) [0])
      ({ s with output := s.output ++ (stop.shown w).map UInt8.toNat }.laid
        (stop.echoLeft w) (stop.echoRight w)) := by
  cases h with
  | count w rest =>
    exact runs_echoCount w (ha.mono (Nat.le_refl _) (by simp [Stop.readCells, Stop.margin]))
  | @delimiter d w rest hw =>
    exact runs_echoDelimiter d w (ha.mono (Nat.le_refl _) (by simp [Stop.readCells, Stop.margin]))

/-- A text and the backspaces that erase it. -/
def Prompt.printed (text : List UInt8) : List UInt8 :=
  text ++ List.replicate (columns text) backspace

namespace Reader

/-- What a reader prints before it reads. -/
def promptBytes (r : Reader) : List UInt8 :=
  match r.placeholder with
  | none => []
  | some text => Prompt.printed text

/-- All that a reader prints when it comes to its end. -/
def printed (r : Reader) (w : List UInt8) : List UInt8 :=
  r.promptBytes ++
    match r.echo with
    | none => []
    | some leadIn => leadIn ++ r.stop.shown w

/-- The cells left of the pointer at the end. -/
def finalLeft (r : Reader) (w : List UInt8) : List Nat :=
  if r.echoes then r.stop.echoLeft w else r.stop.readCells false w

def finalRight (r : Reader) (w : List UInt8) : List Nat :=
  if r.echoes then r.stop.echoRight w else [0]

theorem length_finalLeft_le (r : Reader) (w : List UInt8) :
    (r.finalLeft w).length ≤ (r.stop.readCells r.echoes w).length := by
  unfold finalLeft
  cases r.echoes with
  | false => exact Nat.le_refl _
  | true => exact r.stop.length_echoLeft_le w

theorem runs_prompt (hM : 256 ≤ modulus) (r : Reader) (h0 : s.cell = 0)
    (ha : AllowsCounting allowed s.pointer) :
    Runs modulus allowed ((r.placeholder.map Prompt.program).getD ∅).instructions s
      { s with output := s.output ++ r.promptBytes.map UInt8.toNat } := by
  unfold promptBytes
  cases r.placeholder with
  | none =>
    rw [List.map_nil, List.append_nil]
    exact .nil s
  | some text => exact runs_printOneCell_clear hM ha h0 _

theorem runs_promptAndReading (hM : 256 ≤ modulus) (hs : s.Blank) (r : Reader)
    (h : r.stop.Splits s.input w rest)
    (ha : AllowsWithin allowed s.pointer (s.pointer + (r.stop.readCells r.echoes w).length)) :
    Runs modulus allowed (((r.placeholder.map Prompt.program).getD ∅).instructions ++
        r.stop.readInstructions r.echoes) s
      ({ s with
          input := rest
          output := s.output ++ r.promptBytes.map UInt8.toNat }.laid
        (r.stop.readCells r.echoes w) [0]) := by
  have hprompt : Runs modulus allowed _ s
      { s with output := s.output ++ r.promptBytes.map UInt8.toNat } :=
    r.runs_prompt hM (hs _ (Nat.le_refl _)) (ha.counting (Nat.le_refl _) (Nat.le_add_right _ _))
  have hblank : { s with output := s.output ++ r.promptBytes.map UInt8.toNat }.Blank := hs
  exact hprompt.append (runs_reading hM hblank r.echoes h ha)

/-- With enough input a reader ends, and prints the lead-in on the cell where its reading ended. -/
theorem runs_program (hM : 256 ≤ modulus) (hs : s.Blank) (r : Reader)
    (h : r.stop.Splits s.input w rest)
    (ha : AllowsWithin allowed s.pointer (s.pointer + (r.stop.readCells r.echoes w).length)) :
    Runs modulus allowed r.program.instructions s
      ({ s with
          input := rest
          output := s.output ++ (r.printed w).map UInt8.toNat }.laid
        (r.finalLeft w) (r.finalRight w)) := by
  have hread := r.runs_promptAndReading hM hs h ha
  rw [instructions_program]
  unfold printed finalLeft finalRight
  cases he : r.echo with
  | none =>
    have hechoes : r.echoes = false := by simp [echoes, he]
    rw [hechoes] at hread ⊢
    simpa using hread
  | some leadIn =>
    have hechoes : r.echoes = true := by simp [echoes, he]
    rw [hechoes] at hread ha ⊢
    have hecho : Runs modulus allowed r.stop.echoInstructions
        ({ s with
            input := rest
            output := s.output ++ r.promptBytes.map UInt8.toNat ++ leadIn.map UInt8.toNat }.laid
          (r.stop.readCells true w) [0]) _ := runs_echo h ha
    have hall := runs_leadInAndEcho hM hread (State.laid_cell ..)
      (ha.counting (by simp) (by simp)) hecho
    simpa using hall

/-- With too little input a reader has printed its prompt and waits. -/
theorem blocks_program (hM : 256 ≤ modulus) (hs : s.Blank) (r : Reader)
    (h : r.stop.Waits s.input) :
    Blocks modulus (fun _ _ => True) r.program.instructions s
      ({ s with
          input := []
          output := s.output ++ r.promptBytes.map UInt8.toNat }.laid
        (r.stop.margin r.echoes ++ s.input.map UInt8.toNat) (r.stop.waitCells s.input)) := by
  have hprompt : Runs modulus (fun _ _ => True) _ s
      { s with output := s.output ++ r.promptBytes.map UInt8.toNat } :=
    r.runs_prompt hM (hs _ (Nat.le_refl _)) (fun _ _ _ _ _ => trivial)
  have hblank : { s with output := s.output ++ r.promptBytes.map UInt8.toNat }.Blank := hs
  have hread := blocks_reading hM hblank r.echoes h
  rw [instructions_program]
  exact (hprompt.blocks hread).append _

theorem stopsWith_finished (r : Reader) {input : List UInt8} (h : r.stop.Splits input w rest) :
    r.program.StopsWith input .finished
      ({ State.fresh input with
          input := rest
          output := (r.printed w).map UInt8.toNat }.laid (r.finalLeft w) (r.finalRight w)) := by
  have hrun : Runs 256 (fun _ _ => True) r.program.instructions (.fresh input) _ :=
    r.runs_program (by omega) (State.blank_fresh input) h (allowsWithin_true _ _)
  exact hrun.stopsOn

theorem stopsWith_blocked (r : Reader) {input : List UInt8} (h : r.stop.Waits input) :
    r.program.StopsWith input .blocked
      ({ State.fresh input with
          input := []
          output := r.promptBytes.map UInt8.toNat }.laid
        (r.stop.margin r.echoes ++ input.map UInt8.toNat) (r.stop.waitCells input)) := by
  have hrun : Blocks 256 (fun _ _ => True) r.program.instructions (.fresh input) _ :=
    r.blocks_program (by omega) (State.blank_fresh input) h
  exact hrun.stopsOn

/-- A run that comes to its end had all the input it needed. -/
theorem splits_of_finished (r : Reader) {input : List UInt8} {t : State}
    (h : r.program.StopsWith input .finished t) : ∃ w rest, r.stop.Splits input w rest := by
  rcases r.stop.splits_or_waits input with hs | hw
  · exact hs
  · obtain ⟨hwhy, -⟩ := h.unique (r.stopsWith_blocked hw)
    cases hwhy

end Reader

/-- The echo shows what stands between two cells that hold 0, which is all that was stored only
where no stored byte is itself 0. -/
theorem echo_is_verbatim_iff (r : Reader) {leadIn input w rest : List UInt8}
    (he : r.echo = some leadIn) (h : r.stop.Splits input w rest) :
    ∃ t, r.program.StopsWith input .finished t ∧
      t.output = (r.promptBytes ++ leadIn ++ r.stop.shown w).map UInt8.toNat ∧
      (t.output = (r.promptBytes ++ leadIn ++ w).map UInt8.toNat ↔ 0 ∉ w) := by
  refine ⟨_, r.stopsWith_finished h, ?_, ?_⟩
  · simp [Reader.printed, he]
  · have hprinted : r.printed w = r.promptBytes ++ leadIn ++ r.stop.shown w := by
      simp [Reader.printed, he]
    rw [State.laid_output, hprinted, map_toNat_append_inj]
    exact r.stop.shown_eq_self_iff w

theorem echo_is_verbatim_iff_behind_prompt :
    (Reader.mk (.count 2) (some [62]) (some [63])).echo = some [62] ∧
    (Stop.count 2).Splits [72, 105, 9] [72, 105] [9] ∧
    ∃ t, (Reader.mk (.count 2) (some [62]) (some [63])).program.StopsWith [72, 105, 9] .finished t ∧
      t.output = [63, 8, 62, 72, 105] ∧
      (t.output = [63, 8, 62, 72, 105] ↔ (0 : UInt8) ∉ [72, 105]) := by
  have hsplit : (Stop.count 2).Splits [72, 105, 9] [72, 105] [9] := .count [72, 105] [9]
  have h := echo_is_verbatim_iff ⟨.count 2, some [62], some [63]⟩ rfl hsplit
  exact ⟨rfl, hsplit, h⟩

/-- A stored 0 ends the echo of a counted input; in a delimited one it hides what came before. -/
theorem echo_loses_zero :
    (Stop.count 1).Splits [0] [0] [] ∧
    (∃ t, (Reader.mk (.count 1) (some []) none).program.StopsWith [0] .finished t ∧
      t.output = []) ∧
    (¬∃ t, (Reader.mk (.count 1) (some []) none).program.StopsWith [0] .finished t ∧
      t.output = [0]) ∧
    (Stop.delimiter 10).Splits [72, 0, 105, 10] [72, 0, 105] [] ∧
    (∃ t, (Reader.mk (.delimiter 10) (some []) none).program.StopsWith [72, 0, 105, 10]
      .finished t ∧ t.output = [105]) ∧
    (¬∃ t, (Reader.mk (.delimiter 10) (some []) none).program.StopsWith [72, 0, 105, 10]
      .finished t ∧ t.output = [72, 0, 105]) := by
  have hcount : (Stop.count 1).Splits [0] [0] [] := .count [0] []
  have hdelimiter : (Stop.delimiter 10).Splits [72, 0, 105, 10] [72, 0, 105] [] :=
    .delimiter [] (show (10 : UInt8) ∉ [72, 0, 105] by decide)
  have hcountRun := Reader.stopsWith_finished ⟨.count 1, some [], none⟩ hcount
  have hdelimiterRun := Reader.stopsWith_finished ⟨.delimiter 10, some [], none⟩ hdelimiter
  refine ⟨hcount, ⟨_, hcountRun, rfl⟩, ?_, hdelimiter, ⟨_, hdelimiterRun, rfl⟩, ?_⟩
  · rintro ⟨t, ht, ho⟩
    obtain ⟨-, rfl⟩ := hcountRun.unique ht
    exact absurd ho (by decide)
  · rintro ⟨t, ht, ho⟩
    obtain ⟨-, rfl⟩ := hdelimiterRun.unique ht
    exact absurd ho (by decide)

end TapeScribe
