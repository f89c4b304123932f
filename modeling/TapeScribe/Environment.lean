import TapeScribe.Settings
import TapeScribe.Utf8

namespace TapeScribe

inductive Place
  | unset
  | unreadable
  | file (content : List UInt8)
  deriving DecidableEq, Repr

/-- The places for settings: one named for this program, one for the user's settings, the usual
one. -/
structure Environment where
  named : Place := .unset
  directory : Place := .unset
  home : Place := .unset
  deriving DecidableEq, Repr

namespace Environment

def overrideName : String :=
  "BFGEN_CONFIG"

/-- The first place that is set. No other counts, even if no file can be read there. -/
def place (e : Environment) : Place :=
  if e.named ≠ .unset then e.named
  else if e.directory ≠ .unset then e.directory
  else e.home

/-- The settings in force. A file that cannot be read as text gives the defaults. -/
def settings (e : Environment) : Settings :=
  match e.place with
  | .file content => ((Utf8.decode? content).map Settings.parse).getD {}
  | _ => {}

end Environment

end TapeScribe
