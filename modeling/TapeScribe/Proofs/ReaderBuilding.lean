import Mathlib.Data.List.Induction
import TapeScribe.Request

namespace TapeScribe

/-- One change to a reader that is being built. -/
inductive Reader.Change
  | echo (leadIn : List UInt8)
  | placeholder (text : List UInt8)

namespace Reader

def Change.leadIn? : Change → Option (List UInt8)
  | echo leadIn => some leadIn
  | placeholder _ => none

def Change.text? : Change → Option (List UInt8)
  | echo _ => none
  | placeholder text => some text

def change (r : Reader) : Change → Reader
  | .echo leadIn => r.withEcho leadIn
  | .placeholder text => r.withPlaceholder text

/-- The reader of a stop after some changes, one upon the other. -/
def build (stop : Stop) (changes : List Change) : Reader :=
  changes.foldl change { stop }

def lastLeadIn (changes : List Change) : Option (List UInt8) :=
  (changes.filterMap Change.leadIn?).getLast?

def lastText (changes : List Change) : Option (List UInt8) :=
  (changes.filterMap Change.text?).getLast?

/-- What a reader shows before it reads. -/
def promptSegments : Option (List UInt8) → List Segment
  | none => []
  | some text => if text = [] then [] else (Prompt.program text).segments

variable {stop : Stop} {changes : List Change}

theorem getLast?_filterMap_concat {α β : Type} (f : α → Option β) (l : List α) (x : α) :
    ((l ++ [x]).filterMap f).getLast? = (f x).or (l.filterMap f).getLast? := by
  cases h : f x with
  | none => simp [h]
  | some b => simp [h]

theorem build_concat (stop : Stop) (changes : List Change) (last : Change) :
    build stop (changes ++ [last]) = (build stop changes).change last := by
  rw [build, List.foldl_append]
  rfl

/-- Each change takes the place of the earlier ones of its sort and leaves all else. -/
theorem build_eq (stop : Stop) (changes : List Change) :
    build stop changes = ⟨stop, lastLeadIn changes, lastText changes⟩ := by
  induction changes using List.reverseRecOn with
  | nil => rfl
  | append_singleton changes last ih =>
    have hleadIn : lastLeadIn (changes ++ [last]) = last.leadIn?.or (lastLeadIn changes) :=
      getLast?_filterMap_concat _ _ _
    have htext : lastText (changes ++ [last]) = last.text?.or (lastText changes) :=
      getLast?_filterMap_concat _ _ _
    rw [build_concat, ih, hleadIn, htext]
    cases last <;> rfl

theorem echoes_build : (build stop changes).echoes = true ↔ ∃ leadIn, .echo leadIn ∈ changes := by
  rw [build_eq, echoes, lastLeadIn, List.getLast?_isSome]
  constructor
  · intro h
    obtain ⟨leadIn, hmem⟩ := List.exists_mem_of_ne_nil _ h
    obtain ⟨last, hlast, heq⟩ := List.mem_filterMap.mp hmem
    cases last with
    | echo => exact ⟨_, hlast⟩
    | placeholder => cases heq
  · rintro ⟨leadIn, h⟩
    exact List.ne_nil_of_mem (List.mem_filterMap.mpr ⟨_, h, rfl⟩)

theorem segments_prompt (text : Option (List UInt8)) :
    ((text.map Prompt.program).getD ∅).segments = promptSegments text := by
  cases text with
  | none => rfl
  | some text =>
    by_cases h : text = []
    · rw [h, Option.map_some, Option.getD_some, Prompt.program_nil]
      rfl
    · simp [promptSegments, h]

theorem segments_program (r : Reader) :
    r.program.segments =
      promptSegments r.placeholder ++ (r.stop.reader r.echoes (r.echo.getD [])).program.segments := by
  rw [← segments_prompt]
  obtain ⟨stop, _ | leadIn, placeholder⟩ := r
  · simp [program, Stop.reader, echoes, Program.segments_append, Program.segments_empty]
  · simp [program, Stop.reader, echoes, Program.segments_append, Program.segments_empty]

end Reader

theorem Request.program_read (stop : Stop) (echo : Bool) (leadIn : String) (options : Options) :
    (Request.read stop echo leadIn).program options =
      Reader.program ⟨stop, if echo then some (Utf8.encode leadIn) else none,
        options.placeholder.map Utf8.encode⟩ := rfl

/-- A reader's program is the prompt of the last placeholder and the program of the plain reader. -/
theorem reader_constructions_agree :
    (∀ (stop : Stop) (changes : List Reader.Change),
      (Reader.build stop changes).stop = stop ∧
      ((Reader.build stop changes).echoes = true ↔ ∃ leadIn, .echo leadIn ∈ changes) ∧
      (∀ changes', ((∃ leadIn, Reader.Change.echo leadIn ∈ changes') ↔
          ∃ leadIn, Reader.Change.echo leadIn ∈ changes) →
        ∀ tapeLength, (Reader.build stop changes').capacity tapeLength =
          (Reader.build stop changes).capacity tapeLength) ∧
      (Reader.build stop changes).program.segments =
        Reader.promptSegments (Reader.lastText changes) ++
          (stop.reader (Reader.build stop changes).echoes
            ((Reader.lastLeadIn changes).getD [])).program.segments) ∧
    (∀ (stop : Stop) (echo : Bool) (leadIn : String) (options : Options),
      ((Request.read stop echo leadIn).program options).segments =
        Reader.promptSegments (options.placeholder.map Utf8.encode) ++
          (stop.reader echo (Utf8.encode leadIn)).program.segments ∧
      ∀ changes, Reader.lastLeadIn changes = (if echo then some (Utf8.encode leadIn) else none) →
        Reader.lastText changes = options.placeholder.map Utf8.encode →
          (Request.read stop echo leadIn).program options =
            (Reader.build stop changes).program) ∧
    (∀ (stop : Stop) (echo : Bool) (leadIn : List UInt8),
      stop.reader echo leadIn = Reader.build stop (if echo then [.echo leadIn] else [])) ∧
    (∀ (stop : Stop) (leadIn leadIn' : List UInt8),
      (stop.reader false leadIn).program = (stop.reader false leadIn').program) ∧
    (∀ (stop : Stop) (leadIn leadIn' : String) (options : Options),
      (Request.read stop false leadIn).program options =
        (Request.read stop false leadIn').program options) ∧
    (∀ (text : String) (options options' : Options),
      (Request.print .allCells text).program options =
        (Request.print .allCells text).program options') ∧
    ∀ (text : String) (options options' : Options), options.clearCell = options'.clearCell →
      (Request.print .oneCell text).program options =
        (Request.print .oneCell text).program options' := by
  refine ⟨?_, ?_, ?_, fun _ _ _ => rfl, fun _ _ _ _ => rfl, fun _ _ _ => rfl, ?_⟩
  · intro stop changes
    refine ⟨by rw [Reader.build_eq], Reader.echoes_build, ?_, ?_⟩
    · intro changes' h tapeLength
      have hechoes : (Reader.build stop changes').echoes = (Reader.build stop changes).echoes := by
        rw [Bool.eq_iff_iff, Reader.echoes_build, Reader.echoes_build, h]
      rw [Reader.capacity, Reader.capacity, hechoes, Reader.build_eq, Reader.build_eq]
    · rw [Reader.segments_program, Reader.build_eq]
  · intro stop echo leadIn options
    refine ⟨?_, ?_⟩
    · rw [Request.program_read, Reader.segments_program]
      cases echo <;> rfl
    · intro changes hleadIn htext
      rw [Request.program_read, Reader.build_eq, hleadIn, htext]
  · intro stop echo leadIn
    cases echo <;> rfl
  · intro text options options' h
    rw [Request.program, Request.program, h]

/-- The last placeholder is an empty one, which is no prompt. -/
theorem reader_constructions_agree_after_changes :
    Reader.lastLeadIn [.echo [65], .placeholder [63], .echo [62, 32], .placeholder []] =
      (if true then some (Utf8.encode "> ") else none) ∧
    Reader.lastText [.echo [65], .placeholder [63], .echo [62, 32], .placeholder []] =
      (some "").map Utf8.encode ∧
    (Request.read (.count 2) true "> ").program ⟨true, some ""⟩ =
      (Reader.build (.count 2)
        [.echo [65], .placeholder [63], .echo [62, 32], .placeholder []]).program ∧
    ((∃ leadIn, Reader.Change.echo leadIn ∈ [Reader.Change.echo []]) ↔
      ∃ leadIn, Reader.Change.echo leadIn ∈ [Reader.Change.placeholder [63], .echo [65]]) ∧
    (Reader.build (.delimiter 10) [.echo []]).capacity 5 =
      (Reader.build (.delimiter 10) [.placeholder [63], .echo [65]]).capacity 5 ∧
    (Options.mk true none).clearCell = (Options.mk true (some "?")).clearCell ∧
    (Request.print .oneCell "a").program ⟨true, none⟩ =
      (Request.print .oneCell "a").program ⟨true, some "?"⟩ := by
  obtain ⟨hbuild, hread, -, -, -, -, hprint⟩ := reader_constructions_agree
  have hleadIn : Reader.lastLeadIn [.echo [65], .placeholder [63], .echo [62, 32],
      .placeholder []] = (if true then some (Utf8.encode "> ") else none) := by decide
  have htext : Reader.lastText [.echo [65], .placeholder [63], .echo [62, 32], .placeholder []] =
      (some "").map Utf8.encode := by decide
  have hecho : (∃ leadIn, Reader.Change.echo leadIn ∈ [Reader.Change.echo []]) ↔
      ∃ leadIn, Reader.Change.echo leadIn ∈ [Reader.Change.placeholder [63], .echo [65]] :=
    ⟨fun _ => ⟨[65], by simp⟩, fun _ => ⟨[], by simp⟩⟩
  obtain ⟨-, -, hcapacity, -⟩ := hbuild (.delimiter 10) [.placeholder [63], .echo [65]]
  exact ⟨hleadIn, htext, (hread _ _ _ _).2 _ hleadIn htext, hecho, hcapacity _ hecho 5, rfl,
    hprint _ _ _ rfl⟩

end TapeScribe
