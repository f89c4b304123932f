import TapeScribe.Environment
import TapeScribe.Request

namespace TapeScribe

namespace Usage

def modeLines (m : Mode) : List String :=
  [s!"  {m.index} {m.name} {m.synopsis}", s!"      {m.description}"]

def textLines (name : String) : List String :=
  ["Usage:",
   s!"  {name} [OPTIONS] <MODE|INDEX> [COUNT|DELIMITER] [TEXT...]",
   "",
   "Options (must come before the mode):",
   "  --clear,       -c         Clear the working cell after print-one-cell",
   "  --no-clear                Do not clear it, even if the config file says so",
   "  --placeholder, -p <TEXT>  Print TEXT, then erase it, before reading input",
   "  --debug,       -d         Print a table of generated segments to stderr",
   "  --help,        -h         Show this help",
   "",
   "Modes:"] ++
  Mode.all.flatMap modeLines ++
  ["",
   "Notes:",
   "  - Words after the COUNT/DELIMITER are joined with single spaces.",
   s!"  - COUNT may be at most {maxCount}.",
   "  - Defaults for --clear and --placeholder are read from the [generate]",
   s!"    section of ~/.config/bfgen.toml (or the file named by ${Environment.overrideName})."]

/-- The help text as a file or a pipe gets it; a terminal shows the names of the modes in bold. -/
def text (name : String) : String :=
  String.join ((textLines name).map (· ++ "\n"))

end Usage

end TapeScribe
