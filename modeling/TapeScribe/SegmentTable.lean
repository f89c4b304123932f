import TapeScribe.Program

namespace TapeScribe

namespace SegmentTable

def shownBytes : Nat :=
  40

/-- The text that takes exactly so many bytes, if there is one; a shorter text is taken whole. -/
def firstBytes? : Nat → List Char → Option (List Char)
  | _, [] => some []
  | 0, _ :: _ => some []
  | n, c :: rest =>
    if c.utf8Size ≤ n then (firstBytes? (n - c.utf8Size) rest).map (c :: ·) else none

/-- Long code is cut and marked. The cut is by bytes, so it fails inside a character. -/
def excerpt? (code : String) : Option String :=
  if code.utf8ByteSize ≤ shownBytes then some code
  else (firstBytes? shownBytes code.toList).map fun cs => String.ofList cs ++ "..."

/-- One segment of a program, with its position in the list and in the text. -/
structure Row where
  index : Nat
  offset : Nat
  size : Nat
  note : String
  excerpt : String
  deriving DecidableEq, Repr

def rowsFrom? (index offset : Nat) : List Segment → Option (List Row)
  | [] => some []
  | s :: rest =>
    match excerpt? s.code, rowsFrom? (index + 1) (offset + s.code.utf8ByteSize) rest with
    | some excerpt, some more =>
      some (⟨index, offset, s.code.utf8ByteSize, s.note, excerpt⟩ :: more)
    | _, _ => none

def rows? (p : Program) : Option (List Row) :=
  rowsFrom? 0 0 p.segments

def pad (width : Nat) (s : String) : String :=
  s ++ String.ofList (List.replicate (width - s.length) ' ')

def Row.line (r : Row) : String :=
  " | ".intercalate
    [pad 4 (toString r.index), pad 5 (toString r.offset), pad 4 (toString r.size),
     pad 40 r.note, r.excerpt] ++ "\n"

def heading : String :=
  "SEG  | AT    | LEN  | NOTE                                     | CODE\n" ++
  "-----+-------+------+------------------------------------------" ++
  "+------------------------------------------\n"

def totalLine (p : Program) : String :=
  s!"total: {p.size} instructions in {p.segments.length} segments\n"

/-- The table of a program's segments. There is none if the code of some segment cannot be cut. -/
def render? (p : Program) : Option String :=
  (rows? p).map fun rows => heading ++ String.join (rows.map Row.line) ++ totalLine p

end SegmentTable

end TapeScribe
