import TapeScribe.Proofs.Execution
import TapeScribe.Reader

namespace TapeScribe

open Instruction

namespace Stop

def readInstructions (echoes : Bool) (stop : Stop) : List Instruction :=
  (stop.readSegments echoes).flatMap (fun s => ofCode s.code)

def echoInstructions (stop : Stop) : List Instruction :=
  stop.echoSegments.flatMap (fun s => ofCode s.code)

/-- A condition for a byte less the delimiter: it holds unless the byte was the delimiter. -/
def restoreAndFlag (d : UInt8) : List Instruction :=
  List.replicate d.toNat .increment ++ [.right, .right, .increment, .left]

/-- One pass of the loop that reads up to a delimiter. -/
def delimiterPass (d : UInt8) : List Instruction :=
  [.decrement, .left, .input] ++ List.replicate d.toNat .decrement ++ loop (restoreAndFlag d) ++
    [.right]

theorem ofCode_seeds_one : ofCode (seeds 1) = [.increment] := by
  decide

theorem ofCode_seeds_succ (n : Nat) :
    ofCode (seeds (n + 2)) = .increment :: .right :: ofCode (seeds (n + 1)) := by
  simp only [seeds, ofCode, String.toList_ofList, List.replicate_succ, List.intersperse_cons_cons]
  rfl

theorem readInstructions_count (echoes : Bool) (n : Nat) :
    (count n).readInstructions echoes =
      ofCode (seeds n) ++ List.replicate (n - 1) .left ++ loop [.input, .right] := by
  have hloop : ofCode "[,>]" = loop [.input, .right] := by decide
  simp [readInstructions, readSegments, countSegments, hloop]

theorem instructions_delimiterSegments (d : UInt8) :
    (delimiterSegments d).flatMap (fun s => ofCode s.code) =
      [.right, .increment] ++ loop (delimiterPass d) := by
  have hentry : ofCode ">+" = [.right, .increment] := by decide
  have hstart : ofCode "[" = [.loopStart] := by decide
  have hclear : ofCode "-" = [.decrement] := by decide
  have hstep : ofCode "<" = [.left] := by decide
  have hread : ofCode "," = [.input] := by decide
  have hraise : ofCode ">>+" = [.right, .right, .increment] := by decide
  have hleave : ofCode "<]" = [.left, .loopEnd] := by decide
  have hcheck : ofCode ">]" = [.right, .loopEnd] := by decide
  simp [delimiterSegments, delimiterPass, restoreAndFlag, loop, hentry, hstart, hclear, hstep,
    hread, hraise, hleave, hcheck]

theorem readInstructions_delimiter (echoes : Bool) (d : UInt8) :
    (delimiter d).readInstructions echoes =
      (if echoes then [.right] else []) ++ ([.right, .increment] ++ loop (delimiterPass d)) := by
  have hstep : ofCode ">" = [.right] := by decide
  rw [readInstructions, readSegments, List.flatMap_append, instructions_delimiterSegments]
  cases echoes <;> simp [hstep]

theorem echoInstructions_count (n : Nat) :
    (count n).echoInstructions = List.replicate n .left ++ loop [.output, .right] := by
  have hprint : ofCode "[.>]" = loop [.output, .right] := by decide
  simp [echoInstructions, echoSegments, hprint]

theorem echoInstructions_delimiter (d : UInt8) :
    (delimiter d).echoInstructions =
      [.left] ++ ([.left] ++ loop [.left]) ++ [.right] ++ loop [.output, .right] := by
  have hskip : ofCode "<<" = [.left, .left] := by decide
  have hback : ofCode "[<]" = loop [.left] := by decide
  have hstep : ofCode ">" = [.right] := by decide
  have hprint : ofCode "[.>]" = loop [.output, .right] := by decide
  simp [echoInstructions, echoSegments, hskip, hback, hstep, hprint]

end Stop

theorem Reader.instructions_program (r : Reader) :
    r.program.instructions = ((r.placeholder.map Prompt.program).getD ∅).instructions ++
      r.stop.readInstructions r.echoes ++
        match r.echo with
        | none => []
        | some leadIn => (printOneCell leadIn true).instructions ++ r.stop.echoInstructions := by
  rw [Reader.program]
  cases r.echo with
  | none =>
    simp [Program.instructions_append, Program.instructions_ofList, Stop.readInstructions]
  | some leadIn =>
    simp [Program.instructions_append, Program.instructions_ofList, Stop.readInstructions,
      Stop.echoInstructions]

theorem Stop.instructions_reader (stop : Stop) (echo : Bool) (leadIn : List UInt8) :
    (stop.reader echo leadIn).program.instructions = stop.readInstructions echo ++
      if echo then (printOneCell leadIn true).instructions ++ stop.echoInstructions else [] := by
  have hempty : (∅ : Program).instructions = [] := rfl
  rw [Reader.instructions_program]
  cases echo <;> simp [Stop.reader, Reader.echoes, hempty]

end TapeScribe
