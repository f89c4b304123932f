import TapeScribe.Proofs.Tape
import TapeScribe.Proofs.ReaderText

namespace TapeScribe

open Instruction

variable {modulus : Nat} {allowed : Instruction → State → Prop} {s : State}

theorem runs_seeds (hM : 256 ≤ modulus) (n : Nat) {l : List Nat}
    (ha : AllowsWithin allowed (s.pointer + l.length) (s.pointer + (l.length + n))) :
    Runs modulus allowed (ofCode (Stop.seeds (n + 1))) (s.laid l (List.replicate (n + 1) 0))
      (s.laid (l ++ List.replicate n 1) [1]) := by
  induction n generalizing l with
  | zero =>
    rw [Stop.ofCode_seeds_one, List.replicate_zero, List.append_nil]
    exact runs_raise hM (ha.laid (by simp) (by simp))
  | succ n ih =>
    have hset : Runs modulus allowed [.increment] (s.laid l (0 :: List.replicate (n + 1) 0))
        (s.laid l (1 :: List.replicate (n + 1) 0)) := runs_raise hM (ha.laid (by simp) (by simp))
    have hright : Runs modulus allowed [.right] (s.laid l (1 :: List.replicate (n + 1) 0))
        (s.laid (l ++ [1]) (List.replicate (n + 1) 0)) :=
      runs_right (ha.laid (by simp) (by simp))
    have ha' : AllowsWithin allowed (s.pointer + (l ++ [1]).length)
        (s.pointer + ((l ++ [1]).length + n)) := ha.mono (by simp) (by simp; omega)
    have hrest := ih ha'
    rw [List.append_assoc, List.singleton_append, ← List.replicate_succ] at hrest
    rw [Stop.ofCode_seeds_succ]
    exact hset.cons (hright.cons hrest)

theorem runs_seeding (hM : 256 ≤ modulus) (n : Nat) (hs : s.Blank)
    (ha : AllowsWithin allowed s.pointer (s.pointer + n)) :
    Runs modulus allowed (ofCode (Stop.seeds n) ++ List.replicate (n - 1) .left) s
      (s.laid [] (List.replicate n 1)) := by
  cases n with
  | zero => simpa [Stop.seeds, ofCode] using Runs.nil s
  | succ n =>
    have hset : Runs modulus allowed (ofCode (Stop.seeds (n + 1)))
        (s.laid [] (List.replicate (n + 1) 0)) (s.laid ([] ++ List.replicate n 1) [1]) :=
      runs_seeds hM n (ha.mono (by simp) (by simp))
    have hback : Runs modulus allowed (List.replicate (List.replicate n 1).length .left)
        (s.laid ([] ++ List.replicate n 1) [1]) (s.laid [] (List.replicate n 1 ++ [1])) :=
      runs_lefts _ _ (ha.mono (by simp) (by simp))
    have hblank : s.laid [] (List.replicate (n + 1) 0) = s := by
      simpa using State.laid_zeros hs [] [] (n + 1)
    rw [hblank] at hset
    rw [List.length_replicate, ← List.replicate_succ'] at hback
    exact hset.append hback

theorem balanced_countPass : Machine.Balanced [.input, .right] :=
  Machine.balanced_of_plain (by decide)

theorem runs_countPass (x : UInt8) {rest : List UInt8} {l r : List Nat} {n : Nat}
    (hi : s.input = x :: rest)
    (ha : AllowsWithin allowed (s.pointer + l.length) (s.pointer + (l.length + n))) :
    Runs modulus allowed [.input, .right] (s.laid l (1 :: r))
      ({ s with input := rest }.laid (l ++ [x.toNat]) r) := by
  have hread : Runs modulus allowed [.input] (s.laid l (1 :: r))
      ({ s with input := rest }.laid l (x.toNat :: r)) :=
    runs_input hi (ha.laid (by simp) (by simp))
  have ha' : AllowsWithin allowed ({ s with input := rest }.pointer + l.length)
      ({ s with input := rest }.pointer + (l.length + n)) := ha
  exact hread.cons (runs_right (ha'.laid (by simp) (by simp)))

/-- The loop runs from seed to seed and never looks at what it stored. -/
theorem passes_countLoop (b : List UInt8) {rest : List UInt8} {l r : List Nat}
    (hi : s.input = b ++ rest)
    (ha : AllowsWithin allowed (s.pointer + l.length) (s.pointer + (l.length + b.length))) :
    Passes modulus allowed [.input, .right] (s.laid l (List.replicate b.length 1 ++ r))
      ({ s with input := rest }.laid (l ++ b.map UInt8.toNat) r) := by
  induction b generalizing s l with
  | nil =>
    rw [List.nil_append] at hi
    rw [← hi, List.map_nil, List.append_nil]
    exact .refl _
  | cons x b ih =>
    have hpass : Runs modulus allowed [.input, .right]
        (s.laid l (1 :: (List.replicate b.length 1 ++ r))) _ := runs_countPass x hi ha
    have hrest := ih (s := { s with input := b ++ rest }) (l := l ++ [x.toNat]) rfl
      (ha.mono (by simp) (by simp; omega))
    rw [List.append_assoc] at hrest
    rw [List.length_cons, List.replicate_succ, List.cons_append]
    exact .step (ha.laid (by simp) (by simp)) (ha _ _ (by simp) (by simp)) (by simp) hpass hrest

theorem runs_countReading (hM : 256 ≤ modulus) (hs : s.Blank) (b : List UInt8)
    {rest : List UInt8} (hi : s.input = b ++ rest) (echoes : Bool)
    (ha : AllowsWithin allowed s.pointer (s.pointer + b.length)) :
    Runs modulus allowed ((Stop.count b.length).readInstructions echoes) s
      ({ s with input := rest }.laid (b.map UInt8.toNat) [0]) := by
  have hseed : Runs modulus allowed _ s (s.laid [] (List.replicate b.length 1)) :=
    runs_seeding hM b.length hs ha
  have hloop : Passes modulus allowed [.input, .right]
      (s.laid [] (List.replicate b.length 1 ++ [0]))
      ({ s with input := rest }.laid (b.map UInt8.toNat) [0]) :=
    passes_countLoop b hi (ha.mono (by simp) (by simp))
  have hend : Runs modulus allowed (loop [.input, .right])
      ({ s with input := rest }.laid (b.map UInt8.toNat) [0]) _ :=
    .loop_skip balanced_countPass (ha _ _ (by simp) (by simp)) (State.laid_cell ..)
  rw [State.laid_zero hs] at hloop
  rw [Stop.readInstructions_count]
  exact hseed.append (hloop.runs balanced_countPass hend)

theorem blocks_countReading (hM : 256 ≤ modulus) (hs : s.Blank) {n : Nat}
    (hn : s.input.length < n) (echoes : Bool)
    (ha : AllowsWithin allowed s.pointer (s.pointer + n)) :
    Blocks modulus allowed ((Stop.count n).readInstructions echoes) s
      ({ s with input := [] }.laid (s.input.map UInt8.toNat)
        (List.replicate (n - s.input.length) 1)) := by
  obtain ⟨k, rfl⟩ := Nat.exists_eq_add_of_lt hn
  have hseed : Runs modulus allowed _ s
      (s.laid [] (List.replicate (s.input.length + k + 1) 1)) := runs_seeding hM _ hs ha
  have hloop : Passes modulus allowed [.input, .right]
      (s.laid [] (List.replicate s.input.length 1 ++ List.replicate (k + 1) 1))
      ({ s with input := [] }.laid (s.input.map UInt8.toNat) (List.replicate (k + 1) 1)) :=
    passes_countLoop s.input (List.append_nil _).symm (ha.mono (by simp) (by simp; omega))
  have hwait : Blocks modulus allowed [.input]
      ({ s with input := [] }.laid (s.input.map UInt8.toNat) (1 :: List.replicate k 1)) _ :=
    .input rfl
  have hend : Blocks modulus allowed (loop [.input, .right]) _ _ :=
    .loop_enter (ha _ _ (by simp) (by simp; omega)) (by simp) (hwait.append [.right])
  rw [List.replicate_append_replicate] at hloop
  rw [Stop.readInstructions_count, Nat.add_assoc, Nat.add_sub_cancel_left]
  exact hseed.blocks (hloop.blocks balanced_countPass hend)

/-- Bytes are read into as many cells, whatever they are. With too few the other seeds stay
behind. -/
theorem count_reader_stores (n : Nat) (leadIn input : List UInt8) :
    (n ≤ input.length → ((Stop.count n).reader false leadIn).program.StopsWith input .finished
      ⟨stored (input.take n), n, input.drop n, []⟩) ∧
    (input.length < n → ((Stop.count n).reader false leadIn).program.StopsWith input .blocked
      ⟨stored (input ++ List.replicate (n - input.length) 1), input.length, [], []⟩) := by
  have hcode : ((Stop.count n).reader false leadIn).program.instructions =
      (Stop.count n).readInstructions false := by
    simp [Stop.instructions_reader]
  constructor
  · intro hn
    have hrun : Runs 256 (fun _ _ => True) _ _ _ := runs_countReading (by omega)
      (State.blank_fresh input) (input.take n) (List.take_append_drop n input).symm false
      (allowsWithin_true _ _)
    rw [List.length_take_of_le hn, ← hcode] at hrun
    exact hrun.stopsWith_stored 1 (by simp) (by simp [hn])
  · intro hn
    have hrun : Blocks 256 (fun _ _ => True) _ _ _ := blocks_countReading (by omega)
      (State.blank_fresh input) hn false (allowsWithin_true _ _)
    rw [← hcode] at hrun
    exact hrun.stopsWith_stored 0 (by simp [State.fresh]) (by simp [State.fresh])

theorem count_reader_stores_pair :
    2 ≤ [0, 9, 8].length ∧
    ((Stop.count 2).reader false []).program.StopsWith [0, 9, 8] .finished
      ⟨stored [0, 9], 2, [8], []⟩ ∧
    [5].length < 2 ∧
    ((Stop.count 2).reader false []).program.StopsWith [5] .blocked ⟨stored [5, 1], 1, [], []⟩ := by
  have hfull := (count_reader_stores 2 [] [0, 9, 8]).1 (by decide)
  have hshort := (count_reader_stores 2 [] [5]).2 (by decide)
  exact ⟨by decide, hfull, by decide, hshort⟩

end TapeScribe
