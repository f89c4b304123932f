import TapeScribe.Text
import TapeScribe.Decimal
import TapeScribe.Printer

namespace TapeScribe

/-- What tells a reader to stop, before its value is known. -/
inductive StopKind
  | count
  | delimiter
  deriving DecidableEq, Repr

/-- The kinds of program. A mode with `echo` prints the stored input even without a lead-in. -/
inductive Mode
  | print (layout : Layout)
  | read (kind : StopKind) (echo : Bool)
  deriving DecidableEq, Repr

namespace Mode

/-- Every mode, at the position that is its index. -/
def all : List Mode :=
  [print .allCells, print .oneCell, read .count false, read .count true, read .delimiter false,
   read .delimiter true]

def name : Mode → String
  | print .allCells => "print-all-cells"
  | print .oneCell => "print-one-cell"
  | read .count false => "read-fixed-count"
  | read .count true => "read-fixed-count-and-echo"
  | read .delimiter false => "read-until-delimiter"
  | read .delimiter true => "read-until-delimiter-and-echo"

/-- The arguments that follow the mode. -/
def synopsis : Mode → String
  | print _ => "[TEXT...]"
  | read .count _ => "<COUNT> [TEXT...]"
  | read .delimiter _ => "<DELIMITER> [TEXT...]"

def description : Mode → String
  | print .allCells => "Print TEXT using one cell per character, built with increments only"
  | print .oneCell => "Print TEXT reusing a single cell (see --clear)"
  | read .count false =>
    "Read COUNT characters; echo them if TEXT is given, with TEXT printed first"
  | read .count true => "Read COUNT characters and echo them, printing TEXT first if given"
  | read .delimiter false =>
    "Read until DELIMITER; echo the input if TEXT is given, with TEXT printed first"
  | read .delimiter true =>
    "Read until DELIMITER and echo the input, printing TEXT first if given"

def index (m : Mode) : Nat :=
  all.idxOf m

/-- The mode with a given name, up to case, or index; blanks around the selector do not count. -/
def lookup (selector : String) : Option Mode :=
  let key := lower (trim selector.toList)
  match all.find? (fun m => m.name.toList = key) with
  | some m => some m
  | none => (Decimal.parse? key).bind (fun i => all[i.toNat]?)

theorem mem_all (m : Mode) : m ∈ all := by
  rcases m with (_ | _) | ⟨_ | _, _ | _⟩ <;> decide

theorem getElem?_all_index (m : Mode) : all[m.index]? = some m := by
  rcases m with (_ | _) | ⟨_ | _, _ | _⟩ <;> decide

end Mode

end TapeScribe
