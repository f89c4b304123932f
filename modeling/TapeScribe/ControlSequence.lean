namespace TapeScribe

/-- Where a text stands with respect to the control sequences of a terminal. -/
inductive ControlSequence
  /-- Ordinary text. -/
  | outside
  /-- After the escape character, and after the characters that may then come first. -/
  | escape
  | escapeTail
  /-- Parameters and a final character. -/
  | parameters
  /-- A command to the terminal program, up to the bell. -/
  | command
  /-- The parts of a device string that come before its content. -/
  | device
  | deviceParameters
  | deviceTail
  /-- Content that no one reads, up to its terminator. -/
  | content
  deriving DecidableEq, Repr

namespace ControlSequence

def isLayout (c : Char) : Bool :=
  c = '\t' || c = '\n' || c = '\x0c' || c = '\r'

def isShown (c : Char) : Bool :=
  isLayout c || (0x20 ≤ c.toNat && c.toNat ≠ 0x7F)

def isIntermediate (c : Char) : Bool :=
  0x20 ≤ c.toNat && c.toNat ≤ 0x2F

def isFinal (c : Char) : Bool :=
  0x40 ≤ c.toNat && c.toNat ≤ 0x7E

/-- Digits, separators and the four marks of private use. -/
def isParameter (c : Char) : Bool :=
  0x30 ≤ c.toNat && c.toNat ≤ 0x3F

def afterEscape (c : Char) : ControlSequence :=
  if c = '[' then .parameters
  else if c = ']' then .command
  else if c = 'P' then .device
  else if c = 'X' ∨ c = '^' ∨ c = '_' then .content
  else if isParameter c ∨ isFinal c then .outside
  else if isIntermediate c then .escapeTail
  else .escape

/-- Where the text stands after a character that is not shown. Layout is shown in most sequences
too, and ends them. -/
def advance? (s : ControlSequence) (c : Char) : Option ControlSequence :=
  if c = '\x18' ∨ c = '\x1A' then some .outside
  else if c = '\x1B' then some .escape
  else
    match s with
    | outside => if isShown c then none else some .outside
    | escape => if isLayout c then none else some (afterEscape c)
    | escapeTail =>
      if isLayout c then none
      else some (if isParameter c ∨ isFinal c then .outside else .escapeTail)
    | parameters =>
      if isLayout c then none else some (if isFinal c then .outside else .parameters)
    | command => some (if c = '\x07' then .outside else .command)
    | device =>
      some (if isIntermediate c then .deviceTail
        else if isParameter c then .deviceParameters
        else if isFinal c then .content
        else .device)
    | deviceParameters =>
      some (if isIntermediate c then .deviceTail
        else if isFinal c ∨ ('<' ≤ c ∧ c ≤ '?') then .content
        else .deviceParameters)
    | deviceTail => some (if isParameter c ∨ isFinal c then .content else .deviceTail)
    | content => some (if 0x9C ∈ String.utf8EncodeChar c then .outside else .content)

def stripFrom : ControlSequence → List Char → List Char
  | _, [] => []
  | s, c :: rest =>
    match s.advance? c with
    | none => c :: stripFrom .outside rest
    | some next => stripFrom next rest

/-- A text without its control sequences. A sequence without an end hides the rest of the text. -/
def strip (text : List Char) : List Char :=
  stripFrom .outside text

theorem strip_eq_self {text : List Char} (h : ∀ c ∈ text, isShown c) : strip text = text := by
  unfold strip
  induction text with
  | nil => rfl
  | cons c rest ih =>
    have hc := h c (by simp)
    have hr := ih (fun d hd => h d (by simp [hd]))
    have hn : advance? outside c = none := by
      unfold advance?
      rw [if_neg, if_neg]
      · simp [hc]
      · rintro rfl
        simp [isShown, isLayout] at hc
      · rintro (rfl | rfl) <;> simp [isShown, isLayout] at hc
    simp [stripFrom, hn, hr]

end ControlSequence

end TapeScribe
