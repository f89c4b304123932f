import TapeScribe.Instruction

namespace TapeScribe

/-- The tape, which has no right end, the pointer on it, the input still unread and the output so
far. -/
structure State where
  cells : Nat → Nat
  pointer : Nat
  input : List UInt8
  output : List Nat

/-- Why a machine stops. It is blocked where it should read and no input is left. -/
inductive Halt
  | finished
  | blocked
  | underflow
  | unmatched
  deriving DecidableEq, Repr

namespace State

def fresh (input : List UInt8) : State where
  cells := fun _ => 0
  pointer := 0
  input := input
  output := []

def cell (s : State) : Nat :=
  s.cells s.pointer

def write (s : State) (value : Nat) : State :=
  { s with cells := fun i => if i = s.pointer then value else s.cells i }

/-- One instruction on cells that count modulo a number; the ends of a loop leave the tape alone. -/
def perform (modulus : Nat) (s : State) : Instruction → Except Halt State
  | .right => .ok { s with pointer := s.pointer + 1 }
  | .left => if s.pointer = 0 then .error .underflow else .ok { s with pointer := s.pointer - 1 }
  | .increment => .ok (s.write ((s.cell + 1) % modulus))
  | .decrement => .ok (s.write ((s.cell + (modulus - 1)) % modulus))
  | .output => .ok { s with output := s.output ++ [s.cell] }
  | .input =>
    match s.input with
    | [] => .error .blocked
    | b :: rest => .ok ({ s with input := rest }.write b.toNat)
  | .loopStart => .ok s
  | .loopEnd => .ok s

end State

/-- The instructions from the current one on, and for each loop around them, the inner ones first,
those from the start of its body on. -/
structure Machine where
  todo : List Instruction
  loops : List (List Instruction)
  state : State

namespace Machine

/-- What follows the end of a loop, given what follows its start and how many were entered since. -/
def afterLoop? : Nat → List Instruction → Option (List Instruction)
  | _, [] => none
  | depth, .loopStart :: rest => afterLoop? (depth + 1) rest
  | 0, .loopEnd :: rest => some rest
  | depth + 1, .loopEnd :: rest => afterLoop? depth rest
  | depth, _ :: rest => afterLoop? depth rest

/-- A loop is passed over or left on a cell that holds 0, and gone through on any other. -/
def step (modulus : Nat) (m : Machine) : Except Halt Machine :=
  match m.todo with
  | [] => .error .finished
  | .loopStart :: rest =>
    if m.state.cell = 0 then
      match afterLoop? 0 rest with
      | none => .error .unmatched
      | some todo => .ok { m with todo }
    else .ok { m with todo := rest, loops := rest :: m.loops }
  | .loopEnd :: rest =>
    match m.loops with
    | [] => .error .unmatched
    | body :: outer =>
      if m.state.cell = 0 then .ok { m with todo := rest, loops := outer }
      else .ok { m with todo := body }
  | i :: rest => (m.state.perform modulus i).map fun state => { m with todo := rest, state }

/-- Characters that stand for no instruction are passed over. -/
def load (code : String) (state : State) : Machine where
  todo := code.toList.filterMap Instruction.ofSymbol?
  loops := []
  state := state

/-- The machines that a machine passes through, itself among them. -/
inductive Reaches (modulus : Nat) : Machine → Machine → Prop
  | refl (m) : Reaches modulus m m
  | step {a b c} : Reaches modulus a b → b.step modulus = .ok c → Reaches modulus a c

def Stops (modulus : Nat) (m final : Machine) (why : Halt) : Prop :=
  Reaches modulus m final ∧ final.step modulus = .error why

theorem Reaches.trans {modulus : Nat} {a b c : Machine} (h : Reaches modulus a b)
    (g : Reaches modulus b c) : Reaches modulus a c := by
  induction g with
  | refl => exact h
  | step _ hs ih => exact ih.step hs

end Machine

end TapeScribe
