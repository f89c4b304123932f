import Mathlib.Data.List.GetD
import Mathlib.Data.List.Induction
import TapeScribe.Proofs.Execution

namespace TapeScribe

/-- The cells of a tape that holds bytes from its first cell on, and 0 behind them. -/
def stored (bytes : List UInt8) (i : Nat) : Nat :=
  (bytes.getD i 0).toNat

theorem stored_append_zeros (bytes : List UInt8) (n : Nat) :
    stored (bytes ++ List.replicate n 0) = stored bytes := by
  funext i
  rcases Nat.lt_or_ge i bytes.length with h | h
  · rw [stored, stored, List.getD_append _ _ _ _ h]
  · rw [stored, stored, List.getD_append_right _ _ _ _ h, List.getD_eq_default bytes _ h]
    rcases Nat.lt_or_ge (i - bytes.length) n with hn | hn
    · rw [List.getD_replicate _ hn]
    · rw [List.getD_eq_default _ _ (by simpa using hn)]

namespace State

/-- The tape with values written from the pointer on, and the pointer on the first of the second
list. -/
def laid (s : State) (left right : List Nat) : State :=
  { s with
    cells := fun i =>
      if i < s.pointer then s.cells i else (left ++ right).getD (i - s.pointer) (s.cells i)
    pointer := s.pointer + left.length }

def Blank (s : State) : Prop :=
  ∀ i, s.pointer ≤ i → s.cells i = 0

variable {modulus : Nat} {s : State} {l r : List Nat} {x : Nat}

@[simp]
theorem laid_pointer (s : State) (l r : List Nat) : (s.laid l r).pointer = s.pointer + l.length :=
  rfl

@[simp]
theorem laid_input (s : State) (l r : List Nat) : (s.laid l r).input = s.input :=
  rfl

@[simp]
theorem laid_output (s : State) (l r : List Nat) : (s.laid l r).output = s.output :=
  rfl

theorem laid_cells_left {i : Nat} (h : i < s.pointer) : (s.laid l r).cells i = s.cells i := by
  simp [laid, h]

theorem laid_cells_add (s : State) (l r : List Nat) (k : Nat) :
    (s.laid l r).cells (s.pointer + k) = (l ++ r).getD k (s.cells (s.pointer + k)) := by
  have h : ¬s.pointer + k < s.pointer := by omega
  simp [laid, h]

@[simp]
theorem laid_cell (s : State) (l r : List Nat) (x : Nat) : (s.laid l (x :: r)).cell = x := by
  rw [cell, laid_pointer, laid_cells_add]
  simp

theorem eq_of_cells {s t : State} (start : Nat) (hl : ∀ i < start, s.cells i = t.cells i)
    (hr : ∀ k, s.cells (start + k) = t.cells (start + k)) (hp : s.pointer = t.pointer)
    (hi : s.input = t.input) (ho : s.output = t.output) : s = t := by
  have hc : s.cells = t.cells := by
    funext i
    by_cases h : i < start
    · exact hl i h
    · obtain ⟨k, rfl⟩ := Nat.exists_eq_add_of_le (Nat.le_of_not_lt h)
      exact hr k
  cases s; cases t
  simp_all

@[simp]
theorem laid_nil (s : State) : s.laid [] [] = s := by
  simp [laid]

theorem laid_cell_self (s : State) : s.laid [] [s.cell] = s := by
  refine eq_of_cells s.pointer (fun i hi => laid_cells_left hi) ?_ rfl rfl rfl
  intro k
  rw [laid_cells_add]
  cases k with
  | zero => rfl
  | succ k => rfl

theorem laid_laid (s : State) (l l' r : List Nat) :
    (s.laid l []).laid l' r = s.laid (l ++ l') r := by
  refine eq_of_cells (s.pointer + l.length) ?_ ?_ (by simp [Nat.add_assoc]) rfl rfl
  · intro i hi
    rw [laid_cells_left hi]
    by_cases h : i < s.pointer
    · rw [laid_cells_left h, laid_cells_left h]
    · obtain ⟨k, rfl⟩ := Nat.exists_eq_add_of_le (Nat.le_of_not_lt h)
      have hk : k < l.length := by omega
      rw [laid_cells_add, laid_cells_add]
      simp [hk, List.getElem?_append]
  · intro k
    have h := laid_cells_add (s.laid l []) l' r k
    rw [laid_pointer, Nat.add_assoc, laid_cells_add] at h
    rw [Nat.add_assoc, h, laid_cells_add, List.append_assoc]
    simp [List.getElem?_append_right]

theorem laid_cells_behind (s : State) (l : List Nat) (k : Nat) :
    (s.laid l []).cells (s.pointer + l.length + k) = s.cells (s.pointer + l.length + k) := by
  rw [Nat.add_assoc, laid_cells_add, List.getD_eq_default]
  simp

theorem Blank.laid (h : s.Blank) (l : List Nat) : (s.laid l []).Blank := by
  intro i hi
  rw [laid_pointer] at hi
  obtain ⟨k, rfl⟩ := Nat.exists_eq_add_of_le hi
  rw [laid_cells_behind]
  exact h _ (by omega)

theorem laid_zero (h : s.Blank) (l r : List Nat) : s.laid l (r ++ [0]) = s.laid l r := by
  refine eq_of_cells s.pointer ?_ ?_ rfl rfl rfl
  · intro i hi
    rw [laid_cells_left hi, laid_cells_left hi]
  · intro k
    rw [laid_cells_add, laid_cells_add, h _ (by omega), ← List.append_assoc]
    by_cases hk : k < (l ++ r).length
    · rw [List.getD_append _ _ _ _ hk]
    · have hz : (l ++ r).getD k 0 = 0 := List.getD_eq_default _ _ (by omega)
      rw [List.getD_append_right _ _ _ _ (by omega), hz]
      cases k - (l ++ r).length <;> rfl

theorem laid_zeros (h : s.Blank) (l r : List Nat) (n : Nat) :
    s.laid l (r ++ List.replicate n 0) = s.laid l r := by
  induction n with
  | zero => rw [List.replicate_zero, List.append_nil]
  | succ n ih => rw [List.replicate_succ', ← List.append_assoc, laid_zero h, ih]

theorem write_laid (s : State) (l r : List Nat) (x v : Nat) :
    (s.laid l (x :: r)).write v = s.laid l (v :: r) := by
  refine eq_of_cells s.pointer ?_ ?_ rfl rfl rfl
  · intro i hi
    have hne : i ≠ s.pointer + l.length := by omega
    simp [write, hne, laid_cells_left hi]
  · intro k
    by_cases hk : k = l.length
    · simp [write, hk, laid_cells_add]
    · have hc : ((l ++ x :: r).getD k (s.cells (s.pointer + k))) =
          (l ++ v :: r).getD k (s.cells (s.pointer + k)) := by
        by_cases hlt : k < l.length
        · rw [List.getD_append _ _ _ _ hlt, List.getD_append _ _ _ _ hlt]
        · rw [List.getD_append_right _ _ _ _ (by omega),
            List.getD_append_right _ _ _ _ (by omega)]
          obtain ⟨j, hj⟩ := Nat.exists_eq_succ_of_ne_zero (show k - l.length ≠ 0 by omega)
          simp [hj]
      rw [laid_cells_add, ← hc, ← laid_cells_add]
      simp [write, hk]

/-- Bytes laid out on an empty tape, with or without some of the zeros behind them. -/
theorem laid_stored {l r : List Nat} (bytes : List UInt8) (n : Nat)
    (h : l ++ r = (bytes ++ List.replicate n 0).map UInt8.toNat) (input : List UInt8)
    (output : List Nat) :
    (⟨fun _ => 0, 0, input, output⟩ : State).laid l r =
      ⟨stored bytes, l.length, input, output⟩ := by
  have hc : (fun i => (l ++ r).getD i 0) = stored bytes := by
    rw [← stored_append_zeros bytes n, h]
    funext i
    exact List.getD_map _ 0 UInt8.toNat
  simpa [laid] using hc

theorem blank_fresh (input : List UInt8) : (fresh input).Blank :=
  fun _ _ => rfl

theorem perform_right (s : State) (l r : List Nat) (x : Nat) :
    (s.laid l (x :: r)).perform modulus .right = .ok (s.laid (l ++ [x]) r) := by
  simp [perform, laid, Nat.add_assoc]

theorem perform_left (s : State) (l r : List Nat) (x : Nat) :
    (s.laid (l ++ [x]) r).perform modulus .left = .ok (s.laid l (x :: r)) := by
  simp [perform, laid, ← Nat.add_assoc]

end State

/-- Nothing is forbidden while the pointer is between two cells, both included. -/
def AllowsWithin (allowed : Instruction → State → Prop) (first last : Nat) : Prop :=
  ∀ i t, first ≤ t.pointer → t.pointer ≤ last → allowed i t

theorem AllowsWithin.mono {allowed : Instruction → State → Prop} {first last first' last' : Nat}
    (h : AllowsWithin allowed first last) (hf : first ≤ first') (hl : last' ≤ last) :
    AllowsWithin allowed first' last' :=
  fun i t _ _ => h i t (by omega) (by omega)

theorem allowsWithin_true (first last : Nat) : AllowsWithin (fun _ _ => True) first last :=
  fun _ _ _ _ => trivial

theorem AllowsWithin.laid {allowed : Instruction → State → Prop} {s : State} {l r : List Nat}
    {first last : Nat} {i : Instruction}
    (h : AllowsWithin allowed (s.pointer + first) (s.pointer + last)) (hf : first ≤ l.length)
    (hl : l.length ≤ last) : allowed i (s.laid l r) :=
  h i _ (by simp [hf]) (by simp [hl])

open Instruction

variable {modulus : Nat} {allowed : Instruction → State → Prop} {s : State} {l r : List Nat}
  {x : Nat}

theorem runs_right (ha : allowed .right (s.laid l (x :: r))) :
    Runs modulus allowed [.right] (s.laid l (x :: r)) (s.laid (l ++ [x]) r) :=
  .single (by decide) ha (State.perform_right s l r x)

theorem runs_left (ha : allowed .left (s.laid (l ++ [x]) r)) :
    Runs modulus allowed [.left] (s.laid (l ++ [x]) r) (s.laid l (x :: r)) :=
  .single (by decide) ha (State.perform_left s l r x)

theorem runs_increment (ha : allowed .increment (s.laid l (x :: r))) :
    Runs modulus allowed [.increment] (s.laid l (x :: r))
      (s.laid l ((x + 1) % modulus :: r)) := by
  refine .single (by decide) ha ?_
  rw [State.perform, State.laid_cell, State.write_laid]

theorem runs_decrement (ha : allowed .decrement (s.laid l (x :: r))) :
    Runs modulus allowed [.decrement] (s.laid l (x :: r))
      (s.laid l ((x + (modulus - 1)) % modulus :: r)) := by
  refine .single (by decide) ha ?_
  rw [State.perform, State.laid_cell, State.write_laid]

theorem runs_raise (hM : 256 ≤ modulus) (ha : allowed .increment (s.laid l (0 :: r))) :
    Runs modulus allowed [.increment] (s.laid l (0 :: r)) (s.laid l (1 :: r)) := by
  have h : Runs modulus allowed _ _ _ := runs_increment ha
  rwa [Nat.mod_eq_of_lt (by omega)] at h

theorem runs_lower (hM : 256 ≤ modulus) (ha : allowed .decrement (s.laid l (1 :: r))) :
    Runs modulus allowed [.decrement] (s.laid l (1 :: r)) (s.laid l (0 :: r)) := by
  have h : Runs modulus allowed _ _ _ := runs_decrement ha
  rwa [Nat.add_sub_cancel' (by omega), Nat.mod_self] at h

theorem runs_output (ha : allowed .output (s.laid l (x :: r))) :
    Runs modulus allowed [.output] (s.laid l (x :: r))
      ({ s with output := s.output ++ [x] }.laid l (x :: r)) := by
  refine .single (by decide) ha ?_
  rw [State.perform, State.laid_cell]
  rfl

theorem runs_input {b : UInt8} {rest : List UInt8} (hi : s.input = b :: rest)
    (ha : allowed .input (s.laid l (x :: r))) :
    Runs modulus allowed [.input] (s.laid l (x :: r))
      ({ s with input := rest }.laid l (b.toNat :: r)) := by
  refine .single (by decide) ha ?_
  rw [State.perform, State.laid_input, hi]
  exact congrArg Except.ok (State.write_laid { s with input := rest } l r x b.toNat)

theorem runs_lefts (m : List Nat) (r : List Nat)
    (ha : AllowsWithin allowed (s.pointer + l.length) (s.pointer + (l ++ m).length)) :
    Runs modulus allowed (List.replicate m.length .left) (s.laid (l ++ m) r)
      (s.laid l (m ++ r)) := by
  induction m using List.reverseRecOn generalizing r with
  | nil => simpa using Runs.nil (s.laid l r)
  | append_singleton m x ih =>
    have hstep : Runs modulus allowed [.left] (s.laid (l ++ m ++ [x]) r)
        (s.laid (l ++ m) (x :: r)) := runs_left (ha.laid (by simp) (by simp))
    have hrest := ih (x :: r) (ha.mono (Nat.le_refl _) (by simp))
    simpa [List.replicate_succ] using hstep.cons hrest

theorem runs_increments (n : Nat) (hx : x < modulus)
    (ha : ∀ k < n, allowed .increment (s.laid l ((x + k) % modulus :: r))) :
    Runs modulus allowed (List.replicate n .increment) (s.laid l (x :: r))
      (s.laid l ((x + n) % modulus :: r)) := by
  induction n generalizing x with
  | zero =>
    rw [Nat.add_zero, Nat.mod_eq_of_lt hx]
    exact .nil _
  | succ n ih =>
    have h0 := ha 0 (by omega)
    rw [Nat.add_zero, Nat.mod_eq_of_lt hx] at h0
    have hrest := ih (x := (x + 1) % modulus) (Nat.mod_lt _ (by omega)) (by
      intro k hk
      rw [Nat.mod_add_mod, Nat.add_assoc, Nat.add_comm 1 k]
      exact ha (k + 1) (by omega))
    rw [Nat.mod_add_mod, Nat.add_assoc, Nat.add_comm 1 n] at hrest
    exact (runs_increment h0).cons hrest

theorem Runs.stopsWith_stored {p : Program} {input rest bytes : List UInt8} {output : List Nat}
    {k : Nat} (n : Nat) (h : Runs 256 allowed p.instructions (.fresh input)
      ({ State.fresh input with input := rest, output := output }.laid l r))
    (hb : l ++ r = (bytes ++ List.replicate n 0).map UInt8.toNat) (hk : l.length = k) :
    p.StopsWith input .finished ⟨stored bytes, k, rest, output⟩ := by
  rw [← hk, ← State.laid_stored bytes n hb]
  exact h.stopsOn

theorem Blocks.stopsWith_stored {p : Program} {input rest bytes : List UInt8} {output : List Nat}
    {k : Nat} (n : Nat) (h : Blocks 256 allowed p.instructions (.fresh input)
      ({ State.fresh input with input := rest, output := output }.laid l r))
    (hb : l ++ r = (bytes ++ List.replicate n 0).map UInt8.toNat) (hk : l.length = k) :
    p.StopsWith input .blocked ⟨stored bytes, k, rest, output⟩ := by
  rw [← hk, ← State.laid_stored bytes n hb]
  exact h.stopsOn

theorem mul_pred_add_self {modulus : Nat} (n : Nat) (h : 0 < modulus) :
    n * (modulus - 1) + n = n * modulus := by
  rw [← Nat.mul_succ, Nat.succ_eq_add_one, Nat.sub_add_cancel h]

/-- Counting down is counting up by one less than the size of a cell. -/
theorem sub_mod_of_le {modulus x n : Nat} (hn : n ≤ x) (hx : x < modulus) :
    (x + n * (modulus - 1)) % modulus = x - n := by
  have hs := mul_pred_add_self n (show 0 < modulus by omega)
  rw [show x + n * (modulus - 1) = (x - n) + n * modulus by omega, Nat.add_mul_mod_self_right,
    Nat.mod_eq_of_lt (by omega)]

theorem sub_mod_add {modulus x : Nat} (n : Nat) (hx : x < modulus) :
    ((x + n * (modulus - 1)) % modulus + n) % modulus = x := by
  rw [Nat.mod_add_mod, Nat.add_assoc, mul_pred_add_self n (by omega), Nat.add_mul_mod_self_right,
    Nat.mod_eq_of_lt hx]

theorem runs_decrements (n : Nat) (hx : x < modulus)
    (ha : ∀ k < n, allowed .decrement (s.laid l ((x + k * (modulus - 1)) % modulus :: r))) :
    Runs modulus allowed (List.replicate n .decrement) (s.laid l (x :: r))
      (s.laid l ((x + n * (modulus - 1)) % modulus :: r)) := by
  induction n generalizing x with
  | zero =>
    rw [Nat.zero_mul, Nat.add_zero, Nat.mod_eq_of_lt hx]
    exact .nil _
  | succ n ih =>
    have hshift (k : Nat) : ((x + (modulus - 1)) % modulus + k * (modulus - 1)) % modulus =
        (x + (k + 1) * (modulus - 1)) % modulus := by
      rw [Nat.mod_add_mod, Nat.succ_mul, Nat.add_assoc, Nat.add_comm (modulus - 1)]
    have h0 := ha 0 (by omega)
    rw [Nat.zero_mul, Nat.add_zero, Nat.mod_eq_of_lt hx] at h0
    have hrest := ih (x := (x + (modulus - 1)) % modulus) (Nat.mod_lt _ (by omega)) (by
      intro k hk
      rw [hshift]
      exact ha (k + 1) (by omega))
    rw [hshift] at hrest
    exact (runs_decrement h0).cons hrest

end TapeScribe
