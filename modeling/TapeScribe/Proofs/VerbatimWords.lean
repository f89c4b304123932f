import TapeScribe.Proofs.CommandLine
import TapeScribe.Proofs.ScalarEncoding

namespace TapeScribe

/-- Without a dash in front an argument is a word, whatever it says. -/
theorem Argument.ofBytes_encode_of_no_dash {word : String} (h : word.toList.head? ≠ some '-') :
    ofBytes (Utf8.encode word) = .plain := by
  cases hw : Utf8.encode word with
  | nil => rfl
  | cons b rest =>
    have hb : b ≠ '-'.toUInt8 := by
      rintro rfl
      exact h (Utf8.head?_toList_of_encode_cons (by decide) hw)
    simp only [ofBytes, if_neg hb]

namespace Invocation

namespace Progress

variable {s t : Progress} {given more : List (List UInt8)}

/-- A scan that finds nothing but options leaves the state in which a longer scan goes on. -/
theorem scan_append (hmark : Utf8.encode "--" ∉ given) (h : s.scan given = .ok (t, [])) :
    s.scan (given ++ more) = t.scan more := by
  induction given generalizing s with
  | nil =>
    cases h
    rfl
  | cons a rest ih =>
    rw [List.mem_cons, not_or] at hmark
    rw [List.cons_append, scan]
    rw [scan] at h
    cases ha : Argument.ofBytes a with
    | endOfOptions => exact absurd (Argument.eq_mark_of_endOfOptions ha).symm hmark.1
    | options uses =>
      rw [ha] at h
      obtain ⟨r, hr, hrest⟩ := exists_of_bind_eq_ok h
      simp only [hr, Except.bind]
      exact ih hmark.2 hrest
    | flagWithValue f value =>
      rw [ha] at h
      cases h
    | unreadableName name =>
      rw [ha] at h
      cases h
    | plain =>
      simp only [ha] at h
      split at h
      next hs =>
        simp only [if_pos hs]
        exact ih hmark.2 h
      next => cases h

/-- The first word ends the options, if no value is waited for. -/
theorem scan_word {a : List UInt8} (hs : s.pending ≠ .awaiting) (ha : Argument.ofBytes a = .plain)
    (rest : List (List UInt8)) : s.scan (a :: rest) = .ok (s, a :: rest) := by
  rw [scan, ha]
  exact if_neg hs

theorem scan_mark (s : Progress) (words : List (List UInt8)) :
    s.scan (Utf8.encode "--" :: words) = .ok (s, words) := by
  have hmark : Argument.ofBytes (Utf8.encode "--") = .endOfOptions := by decide
  rw [scan, hmark]

end Progress

/-- Behind accepted options, what a scan takes for words is added and nothing else changes. -/
theorem parse_append {given more : List (List UInt8)} {i : Invocation} {words : List String}
    (hmark : Utf8.encode "--" ∉ given) (h : parse given = .ok i) (hnone : i.words = [])
    (hmore : ∀ s : Progress, s.pending ≠ .awaiting →
      s.scan more = .ok (s, words.map Utf8.encode)) :
    parse (given ++ more) = .ok { i with words := words } := by
  obtain ⟨s, t, hscan, hresolve, hflags, hplaceholder⟩ := parse_eq_ok_iff.mp h
  rw [hnone] at hscan
  have hs : s.pending ≠ .awaiting := fun hs => Progress.not_resolve_of_awaiting hs hresolve
  have hall := (Progress.scan_append hmark hscan).trans (hmore s hs)
  exact parse_eq_ok_iff.mpr ⟨s, t, hall, hresolve, hflags, hplaceholder⟩

end Invocation

/-- From the first word on, or behind the mark, arguments are taken as they stand and switch
nothing. -/
theorem words_are_taken_verbatim {given : List (List UInt8)} {i : Invocation}
    (hmark : Utf8.encode "--" ∉ given) (h : Invocation.parse given = .ok i)
    (hnone : i.words = []) :
    (∀ (word : String) (rest : List String), word.toList.head? ≠ some '-' →
      Invocation.parse (given ++ [Utf8.encode word] ++ rest.map Utf8.encode) =
        .ok { i with words := word :: rest }) ∧
    ∀ words : List String,
      Invocation.parse (given ++ [Utf8.encode "--"] ++ words.map Utf8.encode) =
        .ok { i with words := words } := by
  constructor
  · intro word rest hword
    have hplain := Argument.ofBytes_encode_of_no_dash hword
    rw [List.append_assoc]
    exact Invocation.parse_append hmark h hnone fun s hs => s.scan_word hs hplain _
  · intro words
    rw [List.append_assoc]
    exact Invocation.parse_append hmark h hnone fun s _ => s.scan_mark _

/-- The value of the placeholder looks like a word, and the words look like options. -/
theorem words_are_taken_verbatim_behind_value :
    Utf8.encode "--" ∉ ["--clear", "-dp", "2", "--no-clear"].map Utf8.encode ∧
    Invocation.parse (["--clear", "-dp", "2", "--no-clear"].map Utf8.encode) =
      .ok ⟨[.noClear, .debug], some "2", []⟩ ∧
    "3".toList.head? ≠ some '-' ∧
    Invocation.parse (["--clear", "-dp", "2", "--no-clear", "3", "-5", "--clear", "--", "-h",
      "-p"].map Utf8.encode) =
      .ok ⟨[.noClear, .debug], some "2", ["3", "-5", "--clear", "--", "-h", "-p"]⟩ ∧
    Invocation.parse (["--clear", "-dp", "2", "--no-clear", "--", "-c", "--"].map Utf8.encode) =
      .ok ⟨[.noClear, .debug], some "2", ["-c", "--"]⟩ := by
  have hmark : Utf8.encode "--" ∉ ["--clear", "-dp", "2", "--no-clear"].map Utf8.encode := by
    decide
  have hparse : Invocation.parse (["--clear", "-dp", "2", "--no-clear"].map Utf8.encode) =
      .ok ⟨[.noClear, .debug], some "2", []⟩ := rfl
  have hword : "3".toList.head? ≠ some '-' := by decide
  obtain ⟨hwords, hbehind⟩ := words_are_taken_verbatim hmark hparse rfl
  exact ⟨hmark, hparse, hword, hwords "3" ["-5", "--clear", "--", "-h", "-p"] hword,
    hbehind ["-c", "--"]⟩

end TapeScribe
