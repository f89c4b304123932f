import TapeScribe.Command
import TapeScribe.Proofs.SegmentTable

namespace TapeScribe

/-- What a command comes to: the help text, a message about its words, or a program. -/
inductive Outcome
  | help
  | unknownMode (selector : String)
  | refused (e : ArgumentError)
  | generated (request : Request)
  deriving DecidableEq, Repr

namespace Outcome

def stdout (name : String) (options : Options) : Outcome → String
  | help => Usage.text name
  | unknownMode selector => "Invalid mode '" ++ selector ++ "'\n" ++ Usage.text name
  | refused e => "Error: " ++ e.message ++ "\n"
  | generated request => (request.program options).text ++ "\n"

end Outcome

theorem Spelled.of_append_left {a b : String} (h : Spelled (a ++ b)) : Spelled a := by
  intro c hc
  apply h
  rw [String.toList_append]
  exact List.mem_append_left _ hc

/-- The help text begins with a word and ends with its last line. -/
theorem Usage.exists_text (name : String) : ∃ more, text name = "Usage:" ++ more ++ "\n" := by
  obtain ⟨middle, last, hlines⟩ :
      ∃ middle last, textLines name = "Usage:" :: (middle ++ [last]) := by
    have hne : (textLines name).tail ≠ [] := by simp [textLines]
    exact ⟨_, _, congrArg (List.cons "Usage:") (List.dropLast_concat_getLast hne).symm⟩
  refine ⟨"\n" ++ String.join (middle.map (· ++ "\n")) ++ last, ?_⟩
  rw [text, hlines]
  apply String.ext
  simp [String.toList_join]

namespace Outcome

/-- Only a program is shown by nothing but instructions. -/
theorem exists_shown (o : Outcome) (name : String) (options : Options) :
    ∃ shown, o.stdout name options = shown ++ "\n" ∧
      (Spelled shown ↔ ∃ request, o = .generated request) := by
  cases o with
  | help =>
    obtain ⟨more, hmore⟩ := Usage.exists_text name
    have hword : ¬Spelled ("Usage:" ++ more) :=
      fun h => absurd h.of_append_left (by decide)
    exact ⟨_, hmore, iff_of_false hword (by simp)⟩
  | unknownMode selector =>
    obtain ⟨more, hmore⟩ := Usage.exists_text name
    have hword : ¬Spelled ("Invalid mode '" ++ selector ++ "'\n" ++ ("Usage:" ++ more)) :=
      fun h => absurd h.of_append_left.of_append_left.of_append_left (by decide)
    have hline : stdout name options (unknownMode selector) =
        "Invalid mode '" ++ selector ++ "'\n" ++ ("Usage:" ++ more) ++ "\n" :=
      (congrArg ("Invalid mode '" ++ selector ++ "'\n" ++ ·) hmore).trans String.append_assoc.symm
    exact ⟨_, hline, iff_of_false hword (by simp)⟩
  | refused e =>
    have hword : ¬Spelled ("Error: " ++ e.message) :=
      fun h => absurd h.of_append_left (by decide)
    exact ⟨_, rfl, iff_of_false hword (by simp)⟩
  | generated request =>
    exact ⟨_, rfl, iff_of_true (request.spelled_program options) ⟨request, rfl⟩⟩

end Outcome

namespace Invocation

/-- Help, a first word that names no mode, words that are no request, or words that are one. -/
inductive ComesTo (i : Invocation) : Outcome → Prop
  | help : i.has .help = true ∨ i.words = [] → ComesTo i .help
  | unknownMode {selector arguments} : i.has .help = false → i.words = selector :: arguments →
      Mode.lookup selector = none → ComesTo i (.unknownMode selector)
  | refused {selector arguments mode e} : i.has .help = false → i.words = selector :: arguments →
      Mode.lookup selector = some mode → Request.parse mode arguments = .error e →
      ComesTo i (.refused e)
  | generated {selector arguments mode request} : i.has .help = false →
      i.words = selector :: arguments → Mode.lookup selector = some mode →
      Request.parse mode arguments = .ok request → ComesTo i (.generated request)

variable {i j : Invocation} {o o' : Outcome}

theorem run_eq_report {arguments : List (List UInt8)} (h : parse arguments = .ok i)
    (name : String) (e : Environment) :
    Command.run name arguments e = i.report name e.settings := by
  rw [Command.run, h]

theorem exists_comesTo (i : Invocation) : ∃ o, i.ComesTo o := by
  cases hhelp : i.has .help with
  | true => exact ⟨_, .help (Or.inl hhelp)⟩
  | false =>
    cases hwords : i.words with
    | nil => exact ⟨_, .help (Or.inr hwords)⟩
    | cons selector arguments =>
      cases hmode : Mode.lookup selector with
      | none => exact ⟨_, .unknownMode hhelp hwords hmode⟩
      | some mode =>
        cases hrequest : Request.parse mode arguments with
        | error e => exact ⟨_, .refused hhelp hwords hmode hrequest⟩
        | ok request => exact ⟨_, .generated hhelp hwords hmode hrequest⟩

/-- No report is that of a table that cannot be written. -/
theorem ComesTo.exists_report_eq (h : i.ComesTo o) (name : String) (settings : Settings) :
    ∃ table, i.report name settings = ⟨o.stdout name (i.options settings), table, 0⟩ ∧
      (table ≠ "" ↔ i.has .debug = true ∧ ∃ request, o = .generated request) := by
  unfold report
  cases h with
  | help h =>
    refine ⟨"", ?_, by simp⟩
    rcases h with h | h
    · simp only [h, if_true]
      rfl
    · simp only [h, ite_self]
      rfl
  | unknownMode hhelp hwords hmode =>
    refine ⟨"", ?_, by simp⟩
    simp only [hhelp, hwords, hmode, Bool.false_eq_true, if_false]
    rfl
  | refused hhelp hwords hmode hrequest =>
    refine ⟨"", ?_, by simp⟩
    simp only [hhelp, hwords, hmode, hrequest, Bool.false_eq_true, if_false]
    rfl
  | @generated _ _ _ request hhelp hwords hmode hrequest =>
    have hspelled := request.spelled_program (i.options settings)
    obtain ⟨table, htable, hne⟩ := SegmentTable.exists_render hspelled
    simp only [hhelp, hwords, hmode, hrequest, Bool.false_eq_true, if_false]
    cases hdebug : i.has .debug with
    | false => exact ⟨"", rfl, by simp⟩
    | true =>
      refine ⟨table, ?_, iff_of_true hne ⟨rfl, request, rfl⟩⟩
      rw [if_pos rfl, htable]
      rfl

theorem ComesTo.unique (h : i.ComesTo o) (h' : i.ComesTo o') : o = o' := by
  cases h <;> cases h' <;> simp_all

end Invocation

end TapeScribe
