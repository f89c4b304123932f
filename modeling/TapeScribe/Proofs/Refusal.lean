import TapeScribe.Proofs.Outcome
import TapeScribe.Proofs.TextLines
import TapeScribe.Proofs.VerbatimWords

namespace TapeScribe

namespace ControlSequence

theorem isShown_of_isLayout {c : Char} (h : isLayout c = true) : isShown c = true := by
  rw [isShown, h, Bool.true_or]

theorem isShown_of_advance? {s : ControlSequence} {c : Char} (h : s.advance? c = none) :
    isShown c = true := by
  unfold advance? at h
  split at h
  next => cases h
  next =>
    split at h
    next => cases h
    next =>
      cases s with
      | outside => simpa using h
      | escape | escapeTail | parameters => exact isShown_of_isLayout (by simpa using h)
      | command | device | deviceParameters | deviceTail | content => cases h

theorem all_isShown_stripFrom (s : ControlSequence) (text : List Char) :
    (stripFrom s text).all isShown = true := by
  induction text generalizing s with
  | nil => rfl
  | cons c rest ih =>
    rw [stripFrom]
    split
    next h => rw [List.all_cons, isShown_of_advance? h, ih, Bool.and_true]
    next next _ => exact ih next

theorem all_isShown_append {a b : String} (ha : a.toList.all isShown = true)
    (hb : b.toList.all isShown = true) : (a ++ b).toList.all isShown = true := by
  rw [String.toList_append, List.all_append, ha, hb, Bool.and_true]

theorem all_isShown_ofList {text : List Char} (h : text.all isShown = true) :
    (String.ofList text).toList.all isShown = true := by
  rwa [String.toList_ofList]

/-- Stripping leaves a text alone exactly if all of it is shown. -/
theorem strip_eq_self_iff {text : List Char} : strip text = text ↔ text.all isShown = true := by
  constructor
  · intro h
    rw [← h]
    exact all_isShown_stripFrom .outside text
  · intro h
    exact strip_eq_self (List.all_eq_true.mp h)

end ControlSequence

open ControlSequence

namespace UsageError

theorem all_isShown_shown (argument : List UInt8) :
    (shown argument).toList.all isShown = true := by
  rw [shown, String.toList_ofList]
  exact all_isShown_stripFrom .outside _

theorem shown_encode {s : String} (h : s.toList.all isShown = true) :
    shown (Utf8.encode s) = s := by
  rw [shown, Utf8.display_encode, strip_eq_self_iff.mpr h, String.ofList_toList]

theorem all_isShown_name (f : Flag) : f.name.toList.all isShown = true := by
  cases f <;> exact all_isShown_ofList (by decide)

theorem cause_unexpectedValue (f : Flag) (value : List UInt8) :
    (unexpectedValue f value).cause = "unexpected value '" ++ shown value ++ "' for '--" ++ f.name ++
      "' found; no more were expected" := rfl

/-- Nothing in a message is taken by a terminal for a command, whatever the argument holds. -/
theorem all_isShown_cause (e : UsageError) : e.cause.toList.all isShown = true := by
  cases e with
  | missingPlaceholder => exact all_isShown_ofList (by decide)
  | repeatedPlaceholder => exact all_isShown_ofList (by decide)
  | repeatedFlag f =>
    have hfront := all_isShown_append (a := "the argument '--") (all_isShown_ofList (by decide))
      (all_isShown_name f)
    exact all_isShown_append hfront (all_isShown_ofList (by decide))
  | invalidText => exact all_isShown_ofList (by decide)
  | unexpectedArgument name =>
    have hfront := all_isShown_append (a := "unexpected argument '--")
      (all_isShown_ofList (by decide)) (all_isShown_shown name)
    exact all_isShown_append hfront (all_isShown_ofList (by decide))
  | unexpectedValue f value =>
    have hvalue := all_isShown_append (a := "unexpected value '") (all_isShown_ofList (by decide))
      (all_isShown_shown value)
    have hbetween := all_isShown_append hvalue (b := "' for '--") (all_isShown_ofList (by decide))
    have hflag := all_isShown_append hbetween (all_isShown_name f)
    exact all_isShown_append hflag (all_isShown_ofList (by decide))

end UsageError

section FirstLine

variable {s front : List Char}

theorem headD_lines_cons {c : Char} (hc : c ≠ '\n') (hreturn : c ≠ '\r') :
    (lines (c :: s)).headD [] = c :: (lines s).headD [] := by
  rw [lines.eq_def]
  split
  next heq => cases heq
  next heq =>
    cases heq
    exact absurd rfl hc
  next heq =>
    cases heq
    exact absurd rfl hreturn
  next heq =>
    cases heq
    cases lines s <;> rfl

theorem headD_lines_append (h : front.all (fun c => c ≠ '\n' ∧ c ≠ '\r') = true) :
    (lines (front ++ s)).headD [] = front ++ (lines s).headD [] := by
  induction front with
  | nil => rfl
  | cons c front ih =>
    rw [List.all_cons, Bool.and_eq_true, decide_eq_true_iff] at h
    rw [List.cons_append, headD_lines_cons h.1.1 h.1.2, ih h.2, List.cons_append]

theorem headD_lines_of_notMem (h : '\n' ∉ s) : (lines s).headD [] = s := by
  by_cases hs : s = []
  · rw [hs]
    rfl
  · rw [lines_unended hs h]
    rfl

theorem of_mem_headD_lines {c : Char} (h : c ∈ (lines s).headD []) : c ∈ s ∧ c ≠ '\n' := by
  have hsplits := splits_lines s
  generalize lines s = texts at h hsplits
  cases hsplits with
  | nil => cases h
  | last _ hline => exact ⟨h, ne_of_mem_of_not_mem h hline⟩
  | feed hline _ _ => exact ⟨List.mem_append_left _ h, ne_of_mem_of_not_mem h hline⟩
  | returnFeed hline _ => exact ⟨List.mem_append_left _ h, ne_of_mem_of_not_mem h hline⟩

end FirstLine

theorem Command.firstLine_message (e : UsageError) :
    firstLine e.message = "error: " ++ firstLine e.cause := by
  rw [firstLine, UsageError.message, String.toList_append, headD_lines_append (by decide),
    String.ofList_append, String.ofList_toList]
  rfl

theorem Command.firstLine_eq_self {s : String} (h : '\n' ∉ s.toList) : firstLine s = s := by
  rw [firstLine, headD_lines_of_notMem h, String.ofList_toList]

section Refusal

variable {arguments : List (List UInt8)} {e : UsageError}

theorem Command.run_of_refused (h : Invocation.parse arguments = .error e) (name : String)
    (environment : Environment) : run name arguments environment =
      ⟨"error: " ++ firstLine e.cause ++ "\n" ++ Usage.text name, "", 0⟩ := by
  rw [run, h, ← firstLine_message]

/-- A refused command line is answered with help and one line that any terminal shows as it is. -/
theorem refusal_is_one_shown_line (h : Invocation.parse arguments = .error e) :
    ∃ line : String, line.toList.all isShown = true ∧ '\n' ∉ line.toList ∧
      ∀ name environment, Command.run name arguments environment =
        ⟨"error: " ++ line ++ "\n" ++ Usage.text name, "", 0⟩ := by
  have hmem : ∀ c ∈ (Command.firstLine e.cause).toList, c ∈ e.cause.toList ∧ c ≠ '\n' := by
    intro c hc
    rw [Command.firstLine, String.toList_ofList] at hc
    exact of_mem_headD_lines hc
  refine ⟨Command.firstLine e.cause, ?_, fun hline => (hmem _ hline).2 rfl,
    Command.run_of_refused h⟩
  rw [List.all_eq_true]
  intro c hc
  exact List.all_eq_true.mp e.all_isShown_cause c (hmem c hc).1

/-- The whole command writes a program or none of it, and from its output one can tell which. -/
theorem command_is_all_or_nothing (name : String) (arguments : List (List UInt8))
    (environment : Environment) :
    (Command.run name arguments environment).exitCode = 0 ∧
    ∃ shown, (Command.run name arguments environment).stdout = shown ++ "\n" ∧
      (Spelled shown ↔ ∃ i request, Invocation.parse arguments = .ok i ∧
        i.ComesTo (.generated request)) := by
  cases h : Invocation.parse arguments with
  | error e =>
    obtain ⟨more, hmore⟩ := Usage.exists_text name
    rw [Command.run_of_refused h, hmore]
    refine ⟨rfl, "error: " ++ Command.firstLine e.cause ++ "\n" ++ ("Usage:" ++ more),
      String.append_assoc.symm, ?_⟩
    refine iff_of_false (fun hs => ?_) (by simp)
    exact absurd hs.of_append_left.of_append_left.of_append_left (by decide)
  | ok i =>
    obtain ⟨o, ho⟩ := i.exists_comesTo
    obtain ⟨table, hreport, -⟩ := ho.exists_report_eq name environment.settings
    obtain ⟨shown, hstdout, hshown⟩ := o.exists_shown name (i.options environment.settings)
    rw [Invocation.run_eq_report h, hreport]
    refine ⟨rfl, shown, hstdout, hshown.trans ⟨?_, ?_⟩⟩
    · rintro ⟨request, rfl⟩
      exact ⟨i, request, rfl, ho⟩
    · rintro ⟨j, request, hj, hgenerated⟩
      cases hj
      exact ⟨request, ho.unique hgenerated⟩

end Refusal

theorem Argument.ofBytes_flagWithValue (f : Flag) (value : String) :
    ofBytes (Utf8.encode ("--" ++ f.name ++ "=" ++ value)) =
      .flagWithValue f (Utf8.encode value) := by
  have hname : '='.toUInt8 ∉ Utf8.encode f.name := by cases f <;> decide
  have hbytes : Utf8.encode ("--" ++ f.name ++ "=" ++ value) = '-'.toUInt8 :: '-'.toUInt8 ::
      (Utf8.encode f.name ++ valuePart (some (Utf8.encode value))) := by
    simp only [Utf8.encode_append, List.append_assoc]
    rfl
  have hlong : ofBytes (Utf8.encode ("--" ++ f.name ++ "=" ++ value)) =
      ofLong (Utf8.encode f.name ++ valuePart (some (Utf8.encode value))) := by
    rw [hbytes]
    cases f <;> rfl
  simp only [hlong, ofLong, takeWhile_name hname, tail?_dropWhile_name hname, Utf8.decode?_encode]
  cases f <;> rfl

/-- A flag takes no value, and a value given to it is told as it was given. -/
theorem flag_refuses_value {given : List (List UInt8)} {i : Invocation}
    (hmark : Utf8.encode "--" ∉ given) (h : Invocation.parse given = .ok i) (hnone : i.words = [])
    (f : Flag) {value : String} (hshown : value.toList.all isShown = true)
    (hline : '\n' ∉ value.toList) (rest : List (List UInt8)) (name : String)
    (environment : Environment) :
    Command.run name (given ++ Utf8.encode ("--" ++ f.name ++ "=" ++ value) :: rest) environment =
      ⟨"error: " ++ ("unexpected value '" ++ value ++ "' for '--" ++ f.name ++
        "' found; no more were expected") ++ "\n" ++ Usage.text name, "", 0⟩ := by
  obtain ⟨s, t, hscan, -⟩ := Invocation.parse_eq_ok_iff.mp h
  rw [hnone] at hscan
  have hstop : s.scan (Utf8.encode ("--" ++ f.name ++ "=" ++ value) :: rest) =
      .error (.unexpectedValue f (Utf8.encode value)) := by
    rw [Invocation.Progress.scan, Argument.ofBytes_flagWithValue]
  have hparse : Invocation.parse
      (given ++ Utf8.encode ("--" ++ f.name ++ "=" ++ value) :: rest) =
        .error (.unexpectedValue f (Utf8.encode value)) := by
    rw [Invocation.parse, Invocation.Progress.scan_append hmark hscan, hstop]
    rfl
  rw [Command.run_of_refused hparse, UsageError.cause_unexpectedValue,
    UsageError.shown_encode hshown, Command.firstLine_eq_self]
  simp only [String.toList_append, List.mem_append, not_or]
  exact ⟨⟨⟨⟨by decide, hline⟩, by decide⟩, by cases f <;> decide⟩, by decide⟩

end TapeScribe
