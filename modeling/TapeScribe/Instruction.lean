namespace TapeScribe

/-- The eight instructions of a tape machine with one pointer over byte cells. -/
inductive Instruction
  | right
  | left
  | increment
  | decrement
  | output
  | input
  | loopStart
  | loopEnd
  deriving DecidableEq, Repr

namespace Instruction

def all : List Instruction :=
  [right, left, increment, decrement, output, input, loopStart, loopEnd]

def symbol : Instruction → Char
  | right => '>'
  | left => '<'
  | increment => '+'
  | decrement => '-'
  | output => '.'
  | input => ','
  | loopStart => '['
  | loopEnd => ']'

def ofSymbol? (c : Char) : Option Instruction :=
  all.find? (fun i => i.symbol = c)

theorem mem_all (i : Instruction) : i ∈ all := by
  cases i <;> decide

theorem symbol_ofSymbol? {c : Char} {i : Instruction} (h : ofSymbol? c = some i) :
    i.symbol = c := by
  simpa using List.find?_some h

theorem ofSymbol?_symbol (i : Instruction) : ofSymbol? i.symbol = some i := by
  cases i <;> decide

theorem symbol_injective {i j : Instruction} (h : i.symbol = j.symbol) : i = j := by
  have hi := ofSymbol?_symbol i
  rw [h, ofSymbol?_symbol j] at hi
  exact (Option.some.inj hi).symm

def repeated (i : Instruction) (n : Nat) : String :=
  String.ofList (List.replicate n i.symbol)

theorem toList_repeated (i : Instruction) (n : Nat) :
    (i.repeated n).toList = List.replicate n i.symbol :=
  String.toList_ofList

end Instruction

/-- Steps a cell from one byte to another without crossing 0 or 255; one of the two runs is
empty. -/
def walk (start goal : UInt8) : String :=
  Instruction.increment.repeated (goal.toNat - start.toNat) ++
    Instruction.decrement.repeated (start.toNat - goal.toNat)

end TapeScribe
