import TapeScribe.Argument
import TapeScribe.ControlSequence

namespace TapeScribe

/-- A command line: the options, and the words from the mode on as they were given. -/
structure Invocation where
  flags : List Flag := []
  placeholder : Option String := none
  words : List String := []
  deriving DecidableEq, Repr

inductive UsageError
  | missingPlaceholder
  | repeatedPlaceholder
  | repeatedFlag (f : Flag)
  | invalidText
  | unexpectedArgument (name : List UInt8)
  | unexpectedValue (f : Flag) (value : List UInt8)
  deriving DecidableEq, Repr

/-- A part of an argument as a message shows it: as text without control sequences. -/
def UsageError.shown (argument : List UInt8) : String :=
  String.ofList (ControlSequence.strip (Utf8.display argument))

def UsageError.cause : UsageError → String
  | missingPlaceholder => "a value is required for '--placeholder <TEXT>' but none was supplied"
  | repeatedPlaceholder => "the argument '--placeholder <TEXT>' cannot be used multiple times"
  | repeatedFlag f => s!"the argument '--{f.name}' cannot be used multiple times"
  | invalidText => "invalid UTF-8 was detected in one or more arguments"
  | unexpectedArgument name => s!"unexpected argument '--{shown name}' found"
  | unexpectedValue f value =>
    s!"unexpected value '{shown value}' for '--{f.name}' found; no more were expected"

def UsageError.message (e : UsageError) : String :=
  "error: " ++ e.cause

namespace Invocation

def has (i : Invocation) (f : Flag) : Bool :=
  i.flags.contains f

/-- A placeholder whose value is still to come, or has come and is not yet accepted. -/
inductive Pending
  | nothing
  | awaiting
  | holding (value : List UInt8)
  deriving DecidableEq, Repr

structure Progress where
  flags : List Flag := []
  placeholder : Option String := none
  pending : Pending := .nothing
  deriving DecidableEq, Repr

namespace Progress

def store (s : Progress) (value : List UInt8) : Except UsageError Progress :=
  if s.placeholder.isSome then .error .repeatedPlaceholder
  else
    match Utf8.decode? value with
    | none => .error .invalidText
    | some text => .ok { s with placeholder := some text }

def resolve (s : Progress) : Except UsageError Progress :=
  match s.pending with
  | .nothing => .ok s
  | .awaiting => .error .missingPlaceholder
  | .holding value => { s with pending := .nothing }.store value

/-- A flag is given at most once, unless its opposite took it back. -/
def addFlag (s : Progress) (f : Flag) : Except UsageError Progress :=
  if f ∈ s.flags then .error (.repeatedFlag f)
  else .ok { s with flags := f :: s.flags.filter (fun g => f.opposite? ≠ some g) }

def use (s : Progress) (u : OptionUse) : Except UsageError Progress :=
  s.resolve.bind fun s =>
    match u with
    | .flag f => s.addFlag f
    | .placeholder none => .ok { s with pending := .awaiting }
    | .placeholder (some value) => s.store value

def useAll (s : Progress) : List OptionUse → Except UsageError Progress
  | [] => .ok s
  | u :: rest => (s.use u).bind fun s => s.useAll rest

/-- Goes through the options up to the first word. A waiting placeholder takes a word, never the
mark. -/
def scan (s : Progress) :
    List (List UInt8) → Except UsageError (Progress × List (List UInt8))
  | [] => .ok (s, [])
  | a :: rest =>
    match Argument.ofBytes a with
    | .endOfOptions => .ok (s, rest)
    | .options uses => (s.useAll uses).bind fun s => s.scan rest
    | .flagWithValue f value => .error (.unexpectedValue f value)
    | .unreadableName name => .error (.unexpectedArgument name)
    | .plain =>
      if s.pending = .awaiting then { s with pending := .holding a }.scan rest
      else .ok (s, a :: rest)

end Progress

def parse (arguments : List (List UInt8)) : Except UsageError Invocation :=
  (Progress.scan {} arguments).bind fun (s, words) =>
    s.resolve.bind fun s =>
      match words.mapM Utf8.decode? with
      | none => .error .invalidText
      | some words => .ok ⟨s.flags, s.placeholder, words⟩

end Invocation

end TapeScribe
