import TapeScribe.Prompt

namespace TapeScribe

/-- A reader stops after a number of bytes, or at a delimiter, which it takes and does not store. -/
inductive Stop
  | count (n : Nat)
  | delimiter (d : UInt8)
  deriving DecidableEq, Repr

/-- Writes programs that read input into cells, with a prompt before and an echo of it after. -/
structure Reader where
  stop : Stop
  echo : Option (List UInt8) := none
  placeholder : Option (List UInt8) := none
  deriving DecidableEq, Repr

namespace Stop

def seeds (n : Nat) : String :=
  String.ofList ((List.replicate n '+').intersperse '>')

/-- The loop runs from seed to seed and ends on the untouched cell behind the last one. -/
def countSegments (n : Nat) : List Segment :=
  [⟨s!"seed {n} cells with 1", seeds n⟩,
   ⟨"back to the first cell", Instruction.left.repeated (n - 1)⟩,
   ⟨"read until the unseeded cell", "[,>]"⟩]

/-- Two flags stand right of the byte being read. One that is not the delimiter is restored and
raises the second flag, on which the loop goes on. -/
def delimiterSegments (d : UInt8) : List Segment :=
  [⟨"set the entry flag", ">+"⟩,
   ⟨"loop while the flag is set", "["⟩,
   ⟨"clear the flag", "-"⟩,
   ⟨"step onto the next input cell", "<"⟩,
   ⟨"read", ","⟩,
   ⟨s!"subtract the delimiter ({d})", Instruction.decrement.repeated d.toNat⟩,
   ⟨"if the byte was not the delimiter", "["⟩,
   ⟨"restore the byte", Instruction.increment.repeated d.toNat⟩,
   ⟨"raise the while-flag", ">>+"⟩,
   ⟨"leave on the zero if-flag", "<]"⟩,
   ⟨"check the while-flag", ">]"⟩]

/-- An echo after a delimiter needs a blank cell in front, where its walk back ends. -/
def readSegments (echoes : Bool) : Stop → List Segment
  | count n => countSegments n
  | delimiter d =>
    (if echoes then [⟨"reserve a blank cell to mark the start", ">"⟩] else []) ++
      delimiterSegments d

/-- From the cell where the reading ended back to the first stored byte, and then to the first 0. -/
def echoSegments : Stop → List Segment
  | count n =>
    [⟨"back to the first input cell", Instruction.left.repeated n⟩,
     ⟨"print until the 0 cell", "[.>]"⟩]
  | delimiter _ =>
    [⟨"skip the two flag cells", "<<"⟩,
     ⟨"walk back to the blank start cell", "[<]"⟩,
     ⟨"step onto the first input cell", ">"⟩,
     ⟨"print until the if-flag", "[.>]"⟩]

/-- The cells that a reader visits beside those of the stored bytes. -/
def reserved (echoes : Bool) : Stop → Nat
  | count _ => 1
  | delimiter _ => if echoes then 3 else 2

end Stop

namespace Reader

def withEcho (r : Reader) (leadIn : List UInt8) : Reader :=
  { r with echo := some leadIn }

def withPlaceholder (r : Reader) (text : List UInt8) : Reader :=
  { r with placeholder := some text }

def echoes (r : Reader) : Bool :=
  r.echo.isSome

/-- The most bytes that a reader can store on a tape of the given length. -/
def capacity (r : Reader) (tapeLength : Nat) : Nat :=
  tapeLength - r.stop.reserved r.echoes

/-- The lead-in is printed on the cell where the reading ended, which holds 0 before and after. -/
def program (r : Reader) : Program :=
  let prompt := (r.placeholder.map Prompt.program).getD ∅
  let body := Program.ofList (r.stop.readSegments r.echoes)
  match r.echo with
  | none => prompt ++ body
  | some leadIn => prompt ++ body ++ printOneCell leadIn true ++ .ofList r.stop.echoSegments

end Reader

/-- A reader without a placeholder. The lead-in counts only with the echo. -/
def Stop.reader (stop : Stop) (echo : Bool) (leadIn : List UInt8) : Reader :=
  { stop, echo := if echo then some leadIn else none }

end TapeScribe
