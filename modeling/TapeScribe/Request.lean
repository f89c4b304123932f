import TapeScribe.Mode
import TapeScribe.Reader

namespace TapeScribe

/-- A program that is asked for, with everything it depends on but the options. -/
inductive Request
  | print (layout : Layout) (text : String)
  | read (stop : Stop) (echo : Bool) (leadIn : String)
  deriving DecidableEq, Repr

/-- Whether the one cell is cleared after printing, and what readers show before they read. -/
structure Options where
  clearCell : Bool := false
  placeholder : Option String := none
  deriving DecidableEq, Repr

inductive ArgumentError
  | missingCount
  | invalidCount (argument : String)
  | countTooLarge (argument : String)
  | missingDelimiter
  | invalidDelimiter (argument : String)
  deriving DecidableEq, Repr

def maxCount : Nat :=
  1000000

def ArgumentError.message : ArgumentError → String
  | missingCount => "count is required"
  | invalidCount a => s!"count must be a non-negative integer, got '{a}'"
  | countTooLarge a => s!"count must be at most {maxCount}, got '{a}'"
  | missingDelimiter => "delimiter is required"
  | invalidDelimiter a => s!"delimiter must be a single ASCII character, got '{a}'"

namespace StopKind

def missing : StopKind → ArgumentError
  | count => .missingCount
  | delimiter => .missingDelimiter

/-- A number that does not fit in one machine word is too large a count, and not an invalid one. -/
def parseCount (argument : String) : Except ArgumentError Stop :=
  let digits := Decimal.unsigned (trim argument.toList)
  if digits ≠ [] ∧ digits.all Char.isDigit then
    match Decimal.parse? digits with
    | some n =>
      if n.toNat ≤ maxCount then .ok (.count n.toNat) else .error (.countTooLarge argument)
    | none => .error (.countTooLarge argument)
  else .error (.invalidCount argument)

/-- A count is a decimal numeral, blanks around it aside; a delimiter is any single byte. -/
def parse (kind : StopKind) (argument : String) : Except ArgumentError Stop :=
  match kind with
  | count => parseCount argument
  | delimiter =>
    match Utf8.encode argument with
    | [b] => .ok (.delimiter b)
    | _ => .error (.invalidDelimiter argument)

end StopKind

namespace Request

def joinWords (words : List String) : String :=
  " ".intercalate words

/-- Words after a count or delimiter are the lead-in of an echo, and ask for it. -/
def parse (mode : Mode) (arguments : List String) : Except ArgumentError Request :=
  match mode, arguments with
  | .print layout, words => .ok (.print layout (joinWords words))
  | .read kind _, [] => .error kind.missing
  | .read kind echo, first :: words =>
    (kind.parse first).map fun stop => .read stop (echo || !words.isEmpty) (joinWords words)

def program (options : Options) : Request → Program
  | print .allCells text => printAllCells (Utf8.encode text)
  | print .oneCell text => printOneCell (Utf8.encode text) options.clearCell
  | read stop echo leadIn =>
    { stop.reader echo (Utf8.encode leadIn) with
      placeholder := options.placeholder.map Utf8.encode }.program

end Request

end TapeScribe
