import TapeScribe.Invocation
import TapeScribe.SegmentTable
import TapeScribe.Usage

namespace TapeScribe

structure Report where
  stdout : String
  stderr : String := ""
  exitCode : UInt32
  deriving DecidableEq, Repr

/-- A table that cannot be written ends the command; the rows that were begun are left out here. -/
def Report.aborted : Report where
  stdout := ""
  exitCode := 101

namespace Invocation

/-- The command line comes before the settings, and a flag against clearing before one for it. -/
def options (i : Invocation) (settings : Settings) : Options where
  clearCell := !i.has .noClear && (i.has .clear || settings.clearCell)
  placeholder := i.placeholder <|> settings.placeholder

/-- The whole program with the table that is asked for, or a message or help and no program. -/
def report (i : Invocation) (name : String) (settings : Settings) : Report :=
  match if i.has .help then [] else i.words with
  | [] => { stdout := Usage.text name, exitCode := 0 }
  | selector :: arguments =>
    match Mode.lookup selector with
    | none => { stdout := s!"Invalid mode '{selector}'\n" ++ Usage.text name, exitCode := 0 }
    | some mode =>
      match Request.parse mode arguments with
      | .error e => { stdout := s!"Error: {e.message}\n", exitCode := 0 }
      | .ok request =>
        let p := request.program (i.options settings)
        match if i.has .debug then SegmentTable.render? p else some "" with
        | none => .aborted
        | some table => { stdout := p.text ++ "\n", stderr := table, exitCode := 0 }

end Invocation

namespace Command

def firstLine (s : String) : String :=
  String.ofList ((lines s.toList).headD [])

def run (name : String) (arguments : List (List UInt8)) (environment : Environment) : Report :=
  match Invocation.parse arguments with
  | .error e => { stdout := firstLine e.message ++ "\n" ++ Usage.text name, exitCode := 0 }
  | .ok i => i.report name environment.settings

end Command

end TapeScribe
