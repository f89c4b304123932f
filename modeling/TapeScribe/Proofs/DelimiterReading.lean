import TapeScribe.Proofs.ReaderText
import TapeScribe.Proofs.Tape

namespace TapeScribe

open Instruction

variable {modulus : Nat} {allowed : Instruction → State → Prop} {s : State} {d : UInt8}

theorem balanced_restoreAndFlag (d : UInt8) : Machine.Balanced (Stop.restoreAndFlag d) := by
  have hflag : Machine.Balanced [.right, .right, .increment, .left] :=
    Machine.balanced_of_plain (by decide)
  exact (Machine.balanced_replicate (by decide) d.toNat).append hflag

theorem balanced_delimiterPass (d : UInt8) : Machine.Balanced (Stop.delimiterPass d) := by
  have hread : Machine.Balanced [.decrement, .left, .input] :=
    Machine.balanced_of_plain (by decide)
  have hright : Machine.Balanced [.right] := Machine.balanced_of_plain (by decide)
  have hsub := hread.append (Machine.balanced_replicate (i := .decrement) (by decide) d.toNat)
  exact (hsub.append (balanced_restoreAndFlag d).loop).append hright

theorem sub_delimiter_ne_zero (hM : 256 ≤ modulus) {b : UInt8} (h : b ≠ d) :
    (b.toNat + d.toNat * (modulus - 1)) % modulus ≠ 0 := by
  intro h0
  have hb := b.toNat_lt
  have hd := d.toNat_lt
  have hback := sub_mod_add d.toNat (show b.toNat < modulus by omega)
  rw [h0, Nat.zero_add, Nat.mod_eq_of_lt (by omega)] at hback
  exact h (UInt8.toNat_inj.mp hback.symm)

theorem runs_clearFlag (hM : 256 ≤ modulus) {l : List Nat}
    (ha : AllowsWithin allowed (s.pointer + l.length) (s.pointer + (l.length + 1))) :
    Runs modulus allowed [.decrement, .left] (s.laid (l ++ [0]) [1]) (s.laid l [0, 0]) := by
  have hclear : Runs modulus allowed [.decrement] (s.laid (l ++ [0]) [1])
      (s.laid (l ++ [0]) [0]) := runs_lower hM (ha.laid (by simp) (by simp))
  have hleft : Runs modulus allowed [.left] (s.laid (l ++ [0]) [0]) (s.laid l [0, 0]) :=
    runs_left (ha.laid (by simp) (by simp))
  exact hclear.cons hleft

theorem runs_readAndSubtract (hM : 256 ≤ modulus) {b : UInt8} {rest : List UInt8} {l : List Nat}
    (hi : s.input = b :: rest)
    (ha : AllowsWithin allowed (s.pointer + l.length) (s.pointer + (l.length + 1))) :
    Runs modulus allowed ([.decrement, .left, .input] ++ List.replicate d.toNat .decrement)
      (s.laid (l ++ [0]) [1])
      ({ s with input := rest }.laid l
        [(b.toNat + d.toNat * (modulus - 1)) % modulus, 0]) := by
  have hb := b.toNat_lt
  have ha' : AllowsWithin allowed ({ s with input := rest }.pointer + l.length)
      ({ s with input := rest }.pointer + (l.length + 1)) := ha
  have hread : Runs modulus allowed [.input] (s.laid l [0, 0])
      ({ s with input := rest }.laid l [b.toNat, 0]) := runs_input hi (ha.laid (by simp) (by simp))
  have hsub : Runs modulus allowed (List.replicate d.toNat .decrement)
      ({ s with input := rest }.laid l [b.toNat, 0]) _ :=
    runs_decrements d.toNat (by omega) (fun _ _ => ha'.laid (by simp) (by simp))
  exact ((runs_clearFlag hM ha).append hread).append hsub

theorem runs_restoreAndFlag (hM : 256 ≤ modulus) {b : UInt8} {l : List Nat}
    (ha : AllowsWithin allowed (s.pointer + l.length) (s.pointer + (l.length + 2))) :
    Runs modulus allowed (Stop.restoreAndFlag d)
      (s.laid l [(b.toNat + d.toNat * (modulus - 1)) % modulus, 0, 0])
      (s.laid (l ++ [b.toNat]) [0, 1]) := by
  have hb := b.toNat_lt
  have hadd : Runs modulus allowed (List.replicate d.toNat .increment)
      (s.laid l [(b.toNat + d.toNat * (modulus - 1)) % modulus, 0, 0]) _ :=
    runs_increments d.toNat (Nat.mod_lt _ (by omega)) (fun _ _ => ha.laid (by simp) (by simp))
  rw [sub_mod_add d.toNat (by omega)] at hadd
  have hright : Runs modulus allowed [.right] (s.laid l [b.toNat, 0, 0])
      (s.laid (l ++ [b.toNat]) [0, 0]) := runs_right (ha.laid (by simp) (by simp))
  have hright' : Runs modulus allowed [.right] (s.laid (l ++ [b.toNat]) [0, 0])
      (s.laid (l ++ [b.toNat] ++ [0]) [0]) := runs_right (ha.laid (by simp) (by simp))
  have hraise : Runs modulus allowed [.increment] (s.laid (l ++ [b.toNat] ++ [0]) [0])
      (s.laid (l ++ [b.toNat] ++ [0]) [1]) := runs_raise hM (ha.laid (by simp) (by simp))
  have hleft : Runs modulus allowed [.left] (s.laid (l ++ [b.toNat] ++ [0]) [1])
      (s.laid (l ++ [b.toNat]) [0, 1]) := runs_left (ha.laid (by simp) (by simp))
  exact hadd.append (hright.cons (hright'.cons (hraise.cons hleft)))

/-- A byte that is not the delimiter is stored and the flag goes up one cell further right. -/
theorem runs_delimiterPass_other (hM : 256 ≤ modulus) (hs : s.Blank) {b : UInt8} (hb : b ≠ d)
    {rest : List UInt8} {l : List Nat} (hi : s.input = b :: rest)
    (ha : AllowsWithin allowed (s.pointer + l.length) (s.pointer + (l.length + 2))) :
    Runs modulus allowed (Stop.delimiterPass d) (s.laid (l ++ [0]) [1])
      ({ s with input := rest }.laid (l ++ [b.toNat] ++ [0]) [1]) := by
  have ha' : AllowsWithin allowed ({ s with input := rest }.pointer + l.length)
      ({ s with input := rest }.pointer + (l.length + 2)) := ha
  have hread : Runs modulus allowed _ (s.laid (l ++ [0]) [1]) _ :=
    runs_readAndSubtract (d := d) hM hi (ha.mono (Nat.le_refl _) (by omega))
  have hblank : { s with input := rest }.Blank := hs
  rw [← State.laid_zero hblank] at hread
  have hif : Runs modulus allowed (loop (Stop.restoreAndFlag d))
      ({ s with input := rest }.laid l
        [(b.toNat + d.toNat * (modulus - 1)) % modulus, 0, 0])
      ({ s with input := rest }.laid (l ++ [b.toNat]) [0, 1]) := by
    refine .loop_once (balanced_restoreAndFlag d) (ha'.laid (by simp) (by simp))
      (fun _ => ha'.laid (by simp) (by simp)) ?_ (runs_restoreAndFlag hM ha') (State.laid_cell ..)
    rw [State.laid_cell]
    exact sub_delimiter_ne_zero hM hb
  have hright : Runs modulus allowed [.right]
      ({ s with input := rest }.laid (l ++ [b.toNat]) [0, 1])
      ({ s with input := rest }.laid (l ++ [b.toNat] ++ [0]) [1]) :=
    runs_right (ha'.laid (by simp) (by simp))
  exact (hread.append hif).append hright

theorem runs_delimiterPass_self (hM : 256 ≤ modulus) {rest : List UInt8} {l : List Nat}
    (hi : s.input = d :: rest)
    (ha : AllowsWithin allowed (s.pointer + l.length) (s.pointer + (l.length + 1))) :
    Runs modulus allowed (Stop.delimiterPass d) (s.laid (l ++ [0]) [1])
      ({ s with input := rest }.laid (l ++ [0]) [0]) := by
  have hd := d.toNat_lt
  have ha' : AllowsWithin allowed ({ s with input := rest }.pointer + l.length)
      ({ s with input := rest }.pointer + (l.length + 1)) := ha
  have hread : Runs modulus allowed _ (s.laid (l ++ [0]) [1]) _ :=
    runs_readAndSubtract (d := d) hM hi ha
  rw [sub_mod_of_le (Nat.le_refl _) (by omega), Nat.sub_self] at hread
  have hif : Runs modulus allowed (loop (Stop.restoreAndFlag d))
      ({ s with input := rest }.laid l [0, 0]) _ :=
    .loop_skip (balanced_restoreAndFlag d) (ha'.laid (by simp) (by simp)) (State.laid_cell ..)
  have hright : Runs modulus allowed [.right] ({ s with input := rest }.laid l [0, 0])
      ({ s with input := rest }.laid (l ++ [0]) [0]) := runs_right (ha'.laid (by simp) (by simp))
  exact (hread.append hif).append hright

theorem blocks_delimiterPass (hM : 256 ≤ modulus) {l : List Nat} (hi : s.input = [])
    (ha : AllowsWithin allowed (s.pointer + l.length) (s.pointer + (l.length + 1))) :
    Blocks modulus allowed (Stop.delimiterPass d) (s.laid (l ++ [0]) [1]) (s.laid l [0, 0]) := by
  have hwait : Blocks modulus allowed [.input] (s.laid l [0, 0]) (s.laid l [0, 0]) := .input hi
  exact ((((runs_clearFlag hM ha).blocks hwait).append _).append _).append _

/-- Before each pass a 0 follows the stored bytes, and then the raised flag under the pointer. -/
theorem passes_delimiterLoop (hM : 256 ≤ modulus) (hs : s.Blank) (w : List UInt8) (hw : d ∉ w)
    {rest : List UInt8} {l : List Nat} (hi : s.input = w ++ rest)
    (ha : AllowsWithin allowed (s.pointer + l.length) (s.pointer + (l.length + w.length + 1))) :
    Passes modulus allowed (Stop.delimiterPass d) (s.laid (l ++ [0]) [1])
      ({ s with input := rest }.laid (l ++ w.map UInt8.toNat ++ [0]) [1]) := by
  induction w generalizing s l with
  | nil =>
    rw [List.nil_append] at hi
    rw [← hi, List.map_nil, List.append_nil]
    exact .refl _
  | cons b w ih =>
    have hb : b ≠ d := fun h => hw (by simp [h])
    have hpass : Runs modulus allowed (Stop.delimiterPass d) (s.laid (l ++ [0]) [1]) _ :=
      runs_delimiterPass_other hM hs hb hi (ha.mono (Nat.le_refl _) (by simp))
    have hrest := ih (s := { s with input := w ++ rest }) (l := l ++ [b.toNat]) hs
      (fun h => hw (by simp [h])) rfl (ha.mono (by simp) (by simp; omega))
    have hlist : l ++ [b.toNat] ++ w.map UInt8.toNat = l ++ (b :: w).map UInt8.toNat := by simp
    rw [hlist] at hrest
    exact .step (ha.laid (by simp) (by simp)) (ha _ _ (by simp) (by simp)) (by simp) hpass hrest

theorem runs_entryFlag (hM : 256 ≤ modulus) (hs : s.Blank)
    (ha : AllowsWithin allowed s.pointer (s.pointer + 1)) :
    Runs modulus allowed [.right, .increment] s (s.laid [0] [1]) := by
  have hblank : s.laid [] [0, 0] = s := by
    simpa using State.laid_zeros hs [] [] 2
  have hright : Runs modulus allowed [.right] (s.laid [] [0, 0]) (s.laid [0] [0]) :=
    runs_right (ha _ _ (by simp) (by simp))
  have hraise : Runs modulus allowed [.increment] (s.laid [0] [0]) (s.laid [0] [1]) :=
    runs_raise hM (ha _ _ (by simp) (by simp))
  rw [hblank] at hright
  exact hright.cons hraise

theorem runs_delimiterReading (hM : 256 ≤ modulus) (hs : s.Blank) {w : List UInt8} (hw : d ∉ w)
    {rest : List UInt8} (hi : s.input = w ++ d :: rest)
    (ha : AllowsWithin allowed s.pointer (s.pointer + (w.length + 1))) :
    Runs modulus allowed ([.right, .increment] ++ loop (Stop.delimiterPass d)) s
      ({ s with input := rest }.laid (w.map UInt8.toNat ++ [0]) [0]) := by
  have hentry : Runs modulus allowed [.right, .increment] s (s.laid ([] ++ [0]) [1]) :=
    runs_entryFlag hM hs (ha.mono (Nat.le_refl _) (by omega))
  have hloop : Passes modulus allowed (Stop.delimiterPass d) (s.laid ([] ++ [0]) [1])
      ({ s with input := d :: rest }.laid (w.map UInt8.toNat ++ [0]) [1]) :=
    passes_delimiterLoop hM hs w hw hi (ha.mono (by simp) (by simp))
  have hlast : Runs modulus allowed (Stop.delimiterPass d)
      ({ s with input := d :: rest }.laid (w.map UInt8.toNat ++ [0]) [1])
      ({ s with input := rest }.laid (w.map UInt8.toNat ++ [0]) [0]) :=
    runs_delimiterPass_self hM rfl (ha.mono (by simp) (by simp))
  have hend := Runs.loop_once (balanced_delimiterPass d) (ha _ _ (by simp) (by simp))
    (fun _ => ha _ _ (by simp) (by simp)) (by simp) hlast (State.laid_cell ..)
  exact hentry.append (hloop.runs (balanced_delimiterPass d) hend)

theorem blocks_delimiterReading (hM : 256 ≤ modulus) (hs : s.Blank) (hw : d ∉ s.input)
    (ha : AllowsWithin allowed s.pointer (s.pointer + (s.input.length + 1))) :
    Blocks modulus allowed ([.right, .increment] ++ loop (Stop.delimiterPass d)) s
      ({ s with input := [] }.laid (s.input.map UInt8.toNat) [0, 0]) := by
  have hentry : Runs modulus allowed [.right, .increment] s (s.laid ([] ++ [0]) [1]) :=
    runs_entryFlag hM hs (ha.mono (Nat.le_refl _) (by omega))
  have hloop : Passes modulus allowed (Stop.delimiterPass d) (s.laid ([] ++ [0]) [1])
      ({ s with input := [] }.laid (s.input.map UInt8.toNat ++ [0]) [1]) :=
    passes_delimiterLoop hM hs s.input hw (List.append_nil _).symm (ha.mono (by simp) (by simp))
  have hwait : Blocks modulus allowed (Stop.delimiterPass d)
      ({ s with input := [] }.laid (s.input.map UInt8.toNat ++ [0]) [1])
      ({ s with input := [] }.laid (s.input.map UInt8.toNat) [0, 0]) :=
    blocks_delimiterPass hM rfl (ha.mono (by simp) (by simp))
  have hend := Blocks.loop_enter (ha _ _ (by simp) (by simp)) (by simp) hwait
  exact hentry.blocks (hloop.blocks (balanced_delimiterPass d) hend)

theorem runs_leaveBlank (hs : s.Blank) (ha : AllowsWithin allowed s.pointer s.pointer) :
    Runs modulus allowed [.right] s (s.laid [0] []) := by
  have hblank : s.laid [] [0] = s := by
    simpa using State.laid_zero hs [] []
  have hright : Runs modulus allowed [.right] (s.laid [] [0]) (s.laid [0] []) :=
    runs_right (ha _ _ (by simp) (by simp))
  rwa [hblank] at hright

/-- With an echo to come the reading starts one cell further right, behind a blank cell. -/
theorem runs_delimiterReadInstructions (hM : 256 ≤ modulus) (hs : s.Blank) (echoes : Bool)
    {w : List UInt8} (hw : d ∉ w) {rest : List UInt8} (hi : s.input = w ++ d :: rest)
    (ha : AllowsWithin allowed s.pointer
      (s.pointer + ((if echoes then [0] else []) ++ w.map UInt8.toNat ++ [0]).length)) :
    Runs modulus allowed ((Stop.delimiter d).readInstructions echoes) s
      ({ s with input := rest }.laid ((if echoes then [0] else []) ++ w.map UInt8.toNat ++ [0])
        [0]) := by
  rw [Stop.readInstructions_delimiter]
  cases echoes with
  | false => exact runs_delimiterReading hM hs hw hi (ha.mono (Nat.le_refl _) (by simp))
  | true =>
    have hstart : Runs modulus allowed [.right] s (s.laid [0] []) :=
      runs_leaveBlank hs (ha.mono (Nat.le_refl _) (by simp))
    have hread : Runs modulus allowed ([.right, .increment] ++ loop (Stop.delimiterPass d))
        (s.laid [0] []) (({ s with input := rest }.laid [0] []).laid _ [0]) :=
      runs_delimiterReading hM (hs.laid [0]) hw hi (ha.mono (by simp) (by simp; omega))
    rw [State.laid_laid] at hread
    simpa using hstart.append hread

theorem blocks_delimiterReadInstructions (hM : 256 ≤ modulus) (hs : s.Blank) (echoes : Bool)
    (hw : d ∉ s.input)
    (ha : AllowsWithin allowed s.pointer (s.pointer + (s.input.length + 2))) :
    Blocks modulus allowed ((Stop.delimiter d).readInstructions echoes) s
      ({ s with input := [] }.laid ((if echoes then [0] else []) ++ s.input.map UInt8.toNat)
        [0, 0]) := by
  rw [Stop.readInstructions_delimiter]
  cases echoes with
  | false => exact blocks_delimiterReading hM hs hw (ha.mono (Nat.le_refl _) (by omega))
  | true =>
    have hstart : Runs modulus allowed [.right] s (s.laid [0] []) :=
      runs_leaveBlank hs (ha.mono (Nat.le_refl _) (by simp))
    have hread : Blocks modulus allowed ([.right, .increment] ++ loop (Stop.delimiterPass d))
        (s.laid [0] []) (({ s with input := [] }.laid [0] []).laid _ [0, 0]) :=
      blocks_delimiterReading hM (hs.laid [0]) hw (ha.mono (by simp) (by simp; omega))
    rw [State.laid_laid] at hread
    exact hstart.blocks hread

/-- What comes before the delimiter is stored and the delimiter dropped. Without one all input is
stored and more is waited for. -/
theorem delimiter_reader_stores (d : UInt8) (leadIn w : List UInt8) (hw : d ∉ w) :
    (∀ rest, ((Stop.delimiter d).reader false leadIn).program.StopsWith (w ++ [d] ++ rest)
      .finished ⟨stored w, w.length + 1, rest, []⟩) ∧
    ((Stop.delimiter d).reader false leadIn).program.StopsWith w .blocked
      ⟨stored w, w.length, [], []⟩ := by
  have hcode : ((Stop.delimiter d).reader false leadIn).program.instructions =
      [.right, .increment] ++ loop (Stop.delimiterPass d) := by
    simp [Stop.instructions_reader, Stop.readInstructions_delimiter]
  constructor
  · intro rest
    have hinput : w ++ [d] ++ rest = w ++ d :: rest := by simp
    have hrun : Runs 256 (fun _ _ => True) _ (.fresh (w ++ [d] ++ rest)) _ :=
      runs_delimiterReading (by omega) (State.blank_fresh _) hw hinput (allowsWithin_true _ _)
    rw [← hcode] at hrun
    exact hrun.stopsWith_stored 2 (by simp) (by simp)
  · have hrun : Blocks 256 (fun _ _ => True) _ (.fresh w) _ :=
      blocks_delimiterReading (by omega) (State.blank_fresh w) hw (allowsWithin_true _ _)
    rw [← hcode] at hrun
    exact hrun.stopsWith_stored 2 (by simp [State.fresh]) (by simp [State.fresh])

theorem delimiter_reader_stores_before_line_end :
    (10 : UInt8) ∉ [0, 200, 7] ∧
    ((Stop.delimiter 10).reader false []).program.StopsWith [0, 200, 7, 10, 9] .finished
      ⟨stored [0, 200, 7], 4, [9], []⟩ ∧
    ((Stop.delimiter 10).reader false []).program.StopsWith [0, 200, 7] .blocked
      ⟨stored [0, 200, 7], 3, [], []⟩ := by
  have h := delimiter_reader_stores 10 [] [0, 200, 7] (by decide)
  exact ⟨by decide, h.1 [9], h.2⟩

end TapeScribe
