import TapeScribe.Text

namespace TapeScribe

/-- Defaults for the options, as a settings file gives them. -/
structure Settings where
  clearCell : Bool := false
  placeholder : Option String := none
  deriving DecidableEq, Repr

namespace Settings

/-- The text between a first and a last character, both required. -/
def between? (first last : Char) : List Char → Option (List Char)
  | [] => none
  | c :: rest => if c = first ∧ rest.getLast? = some last then some rest.dropLast else none

def unquote (s : List Char) : List Char :=
  (between? '"' '"' s).getD s

inductive Line
  | header (title : List Char)
  | entry (key value : List Char)
  | ignored
  deriving DecidableEq, Repr

/-- A header stands in square brackets; an entry has an equals sign, and the first ends the key. -/
def Line.ofChars (s : List Char) : Line :=
  let s := trim s
  if s.head? = some '#' then .ignored
  else
    match between? '[' ']' s with
    | some title => .header (trim title)
    | none =>
      match s.dropWhile (· ≠ '=') with
      | [] => .ignored
      | _ :: value => .entry (trim (s.takeWhile (· ≠ '='))) (unquote (trim value))

def parseBool? (s : List Char) : Option Bool :=
  let word := String.ofList (lower (trim s))
  if word ∈ ["true", "yes", "on", "1"] then some true
  else if word ∈ ["false", "no", "off", "0"] then some false
  else none

/-- Later values replace earlier ones; unknown keys and words that are no boolean change nothing. -/
def set (settings : Settings) (key value : List Char) : Settings :=
  if key = "clear_cell".toList then
    { settings with clearCell := (parseBool? value).getD settings.clearCell }
  else if key = "placeholder".toList then
    { settings with placeholder := some (String.ofList value) }
  else settings

/-- Entries count only while the nearest header above is the right one. -/
def ofLines (settings : Settings) (counting : Bool) : List Line → Settings
  | [] => settings
  | .header title :: rest => ofLines settings (title = "generate".toList) rest
  | .entry key value :: rest =>
    ofLines (if counting then settings.set key value else settings) counting rest
  | .ignored :: rest => ofLines settings counting rest

/-- Reads the section of a settings file that is about generating programs. No text is refused. -/
def parse (content : String) : Settings :=
  ofLines {} false ((lines content.toList).map Line.ofChars)

end Settings

end TapeScribe
