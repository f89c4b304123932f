import TapeScribe.Program

namespace TapeScribe

/-- Each printed byte in a cell of its own, or all in one that is stepped from byte to byte. -/
inductive Layout
  | allCells
  | oneCell
  deriving DecidableEq, Repr

instance : Inhabited Layout := ⟨.oneCell⟩

/-- Writes programs that print a text. With `clear` the one cell ends as 0. -/
structure Printer where
  layout : Layout := default
  clear : Bool := false
  deriving DecidableEq, Repr

namespace Printer

/-- A byte as notes show it: its number, after its character if that has a visible form. -/
def describe (b : UInt8) : String :=
  if 0x20 ≤ b ∧ b ≤ 0x7E then s!"'{Char.ofNat b.toNat}' ({b})" else s!"{b}"

def allCellsSegments (text : List UInt8) : List Segment :=
  text.flatMap fun b =>
    [⟨s!"build {describe b} from 0", walk 0 b⟩, ⟨"print and step to a fresh cell", ".>"⟩]

/-- One step and one print for each byte, from the byte before it or from 0. -/
def stepSegments (text : List UInt8) : List Segment :=
  ((0 :: text).zip text).flatMap fun (cursor, b) =>
    [⟨s!"step {cursor} -> {describe b}", walk cursor b⟩, ⟨"print", "."⟩]

def clearSegment (text : List UInt8) : Segment :=
  ⟨"clear the working cell", walk (text.getLastD 0) 0⟩

def segments (p : Printer) (text : List UInt8) : List Segment :=
  match p.layout with
  | .allCells => allCellsSegments text
  | .oneCell => stepSegments text ++ if p.clear then [clearSegment text] else []

def program (p : Printer) (text : List UInt8) : Program :=
  .ofList (p.segments text)

end Printer

def printAllCells (text : List UInt8) : Program :=
  (Printer.mk .allCells false).program text

/-- Prints all bytes through one cell, which holds 0 at the start. -/
def printOneCell (text : List UInt8) (clear : Bool) : Program :=
  (Printer.mk .oneCell clear).program text

end TapeScribe
