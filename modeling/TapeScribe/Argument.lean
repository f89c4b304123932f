import TapeScribe.Utf8

namespace TapeScribe

inductive Flag
  | clear
  | noClear
  | debug
  | help
  deriving DecidableEq, Repr

namespace Flag

def all : List Flag :=
  [clear, noClear, debug, help]

def name : Flag → String
  | clear => "clear"
  | noClear => "no-clear"
  | debug => "debug"
  | help => "help"

def ofName? (name : String) : Option Flag :=
  all.find? (fun f => f.name = name)

def ofLetter? (b : UInt8) : Option Flag :=
  if b = 'c'.toUInt8 then some clear
  else if b = 'd'.toUInt8 then some debug
  else if b = 'h'.toUInt8 then some help
  else none

def opposite? : Flag → Option Flag
  | clear => some noClear
  | noClear => some clear
  | debug => none
  | help => none

end Flag

/-- One option as an argument gives it. A placeholder may leave its value to the next argument. -/
inductive OptionUse
  | flag (f : Flag)
  | placeholder (value : Option (List UInt8))
  deriving DecidableEq, Repr

/-- What an argument is by its form alone. -/
inductive Argument
  | endOfOptions
  | options (uses : List OptionUse)
  | flagWithValue (f : Flag) (value : List UInt8)
  | unreadableName (name : List UInt8)
  | plain
  deriving DecidableEq, Repr

namespace Argument

/-- The first letter that is no flag is the placeholder's and takes what follows as its value. -/
def usesOfLetters : List UInt8 → List OptionUse
  | [] => []
  | b :: rest =>
    match Flag.ofLetter? b with
    | some f => .flag f :: usesOfLetters rest
    | none => [.placeholder (if rest = [] then none else some rest)]

/-- One dash and letters of options only; a letter that is no option makes it an ordinary word. -/
def ofLetters (letters : List UInt8) : Argument :=
  if letters ≠ [] ∧ letters.all (fun b => b = 'p'.toUInt8 ∨ (Flag.ofLetter? b).isSome) then
    .options (usesOfLetters letters)
  else .plain

/-- Two dashes and a name. The first equals sign ends the name and begins a value. -/
def ofLong (long : List UInt8) : Argument :=
  let name := long.takeWhile (· ≠ '='.toUInt8)
  let value := (long.dropWhile (· ≠ '='.toUInt8)).tail?
  match Utf8.decode? name with
  | none => .unreadableName name
  | some name =>
    if name = "placeholder" then .options [.placeholder value]
    else
      match Flag.ofName? name, value with
      | some f, none => .options [.flag f]
      | some f, some value => .flagWithValue f value
      | none, _ => .plain

def ofBytes : List UInt8 → Argument
  | [] => .plain
  | a :: rest =>
    if a = '-'.toUInt8 then
      match rest with
      | [] => .plain
      | b :: long =>
        if b = '-'.toUInt8 then if long = [] then .endOfOptions else ofLong long
        else ofLetters rest
    else .plain

end Argument

end TapeScribe
