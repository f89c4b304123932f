import TapeScribe.Printer
import TapeScribe.Utf8

namespace TapeScribe

namespace Prompt

/-- The byte that moves the cursor of a terminal one column back. -/
def backspace : UInt8 := 8

/-- The columns that a shown text takes: one a character, or one a byte if it is no text. -/
def columns (text : List UInt8) : Nat :=
  match Utf8.decode? text with
  | some s => s.length
  | none => text.length

/-- Prints a text and as many backspaces as it takes columns, and leaves the tape as before. -/
def program (text : List UInt8) : Program :=
  printOneCell (text ++ List.replicate (columns text) backspace) true

theorem columns_encode (s : String) : columns (Utf8.encode s) = s.length := by
  rw [columns, Utf8.decode?_encode]

/-- An empty text is no prompt at all. -/
theorem program_nil : program [] = ∅ := by
  have hcolumns : columns [] = 0 := columns_encode ""
  rw [program, hcolumns]
  rfl

end Prompt

end TapeScribe
