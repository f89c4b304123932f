import TapeScribe.Instruction

namespace TapeScribe

/-- A run of instruction text with a note on what it does to the tape. -/
structure Segment where
  note : String
  code : String
  deriving DecidableEq, Repr

/-- Instruction text in annotated segments, each of which shows something that the text does. -/
@[ext]
structure Program where
  segments : List Segment
  code_ne : ∀ s ∈ segments, s.code ≠ ""
  deriving DecidableEq

namespace Program

def ofList (segments : List Segment) : Program where
  segments := segments.filter (fun s => s.code ≠ "")
  code_ne := by
    intro s hs
    simpa using (List.mem_filter.mp hs).2

instance : EmptyCollection Program := ⟨ofList []⟩

instance : Inhabited Program := ⟨∅⟩

instance : Append Program where
  append p q :=
    { segments := p.segments ++ q.segments
      code_ne := fun s hs => (List.mem_append.mp hs).elim (p.code_ne s) (q.code_ne s) }

def emit (p : Program) (note code : String) : Program :=
  p ++ ofList [⟨note, code⟩]

def isEmpty (p : Program) : Bool :=
  p.segments.isEmpty

def text (p : Program) : String :=
  String.join (p.segments.map Segment.code)

def total (p : Program) (measure : Segment → Nat) : Nat :=
  @List.sum Nat _ .ofOfNat0 (p.segments.map measure)

def size (p : Program) : Nat :=
  p.total (fun s => s.code.utf8ByteSize)

def count (p : Program) (i : Instruction) : Nat :=
  p.total (fun s => s.code.toList.count i.symbol)

theorem segments_empty : (∅ : Program).segments = [] := rfl

theorem segments_append (p q : Program) : (p ++ q).segments = p.segments ++ q.segments := rfl

theorem segments_ofList (l : List Segment) :
    (ofList l).segments = l.filter (fun s => s.code ≠ "") := rfl

theorem toList_text (p : Program) :
    p.text.toList = p.segments.flatMap (fun s => s.code.toList) := by
  simp [text, String.toList_join, List.flatMap_map]

theorem text_append (p q : Program) : (p ++ q).text = p.text ++ q.text := by
  apply String.ext
  simp [toList_text, segments_append]

theorem total_append (p q : Program) (measure : Segment → Nat) :
    (p ++ q).total measure = p.total measure + q.total measure := by
  rw [total, segments_append, List.map_append, List.sum_append]
  rfl

theorem size_append (p q : Program) : (p ++ q).size = p.size + q.size :=
  total_append p q _

theorem count_append (p q : Program) (i : Instruction) :
    (p ++ q).count i = p.count i + q.count i :=
  total_append p q _

theorem toList_text_ofList (l : List Segment) :
    (ofList l).text.toList = l.flatMap (fun s => s.code.toList) := by
  rw [toList_text, segments_ofList]
  induction l with
  | nil => rfl
  | cons s r ih =>
    by_cases h : s.code = ""
    · simpa [List.filter_cons, h] using ih
    · simpa [List.filter_cons, h] using ih

end Program

end TapeScribe
