import TapeScribe.Proofs.SettingsFile

namespace TapeScribe

namespace Settings

/-- A file of the given lines. The last one may go without a line feed at its end. -/
def fileOf (texts : List String) (ended : Bool) : String :=
  "\n".intercalate texts ++ if ended then "\n" else ""

theorem ofChars_congr {line line' : List Char} (h : trim line = trim line') :
    Line.ofChars line = Line.ofChars line' := by
  simp only [Line.ofChars, h]

theorem map_ofChars_lines_fileOf {text : String} {more : List String} (ended : Bool)
    (h : ∀ t ∈ text :: more, t ≠ "" ∧ '\n' ∉ t.toList) :
    (lines (fileOf (text :: more) ended).toList).map Line.ofChars =
      (text :: more).map (fun t => Line.ofChars t.toList) := by
  have hfeed : "\n".toList = ['\n'] := rfl
  induction more generalizing text with
  | nil =>
    obtain ⟨hne, hline⟩ := h text (by simp)
    cases ended with
    | false =>
      have hlines := lines_unended (by simpa using hne) hline
      simp [fileOf, hlines]
    | true =>
      obtain ⟨shown, hlines, htrim⟩ := exists_lines_ended hline []
      simp [fileOf, hfeed, hlines, ofChars_congr htrim, lines]
  | cons next more ih =>
    obtain ⟨-, hline⟩ := h text (by simp)
    have hrest := ih (fun t ht => h t (List.mem_cons_of_mem _ ht))
    have hsplit : (fileOf (text :: next :: more) ended).toList =
        text.toList ++ '\n' :: (fileOf (next :: more) ended).toList := by
      simp [fileOf, String.toList_intercalate, hfeed]
    obtain ⟨shown, hlines, htrim⟩ := exists_lines_ended hline (fileOf (next :: more) ended).toList
    rw [hsplit, hlines, List.map_cons, List.map_cons, hrest, ofChars_congr htrim]

/-- A name that can stand in front of an equals sign and be nothing else than a key. -/
def IsKey (key : List Char) : Prop :=
  Trimmed key ∧ '=' ∉ key ∧ ∃ c rest, key = c :: rest ∧ c ≠ '#' ∧ c ≠ '['

/-- What stands behind a key is its value, but for blanks around it and one pair of quotes. -/
theorem ofChars_pair {key : List Char} (hkey : IsKey key) (s : List Char) :
    Line.ofChars (key ++ ' ' :: '=' :: s) = .entry key (unquote (trim s)) := by
  obtain ⟨htrimmed, hequals, c, tail, rfl, hhash, hbracket⟩ := hkey
  have hlast : (c :: tail ++ [' ', '=']).getLast? = some '=' := by
    rw [List.append_cons, List.getLast?_concat]
  have hfront : Trimmed (c :: tail ++ [' ', '=']) := by
    refine ⟨htrimmed.1, fun d hd => ?_⟩
    cases hlast.symm.trans hd
    decide
  obtain ⟨rest, htrim, hrest⟩ := exists_trim_append (by simp) hfront s
  have hline : trim (c :: tail ++ ' ' :: '=' :: s) = c :: tail ++ ' ' :: '=' :: rest := by
    simpa using htrim
  rw [ofChars_eq_entry_iff, IsEntry, hline]
  refine ⟨by simpa using hhash, ?_, c :: tail ++ [' '], rest, by simp, by simpa using hequals, ?_,
    ?_⟩
  · rintro title ⟨inner, hinner, -⟩
    rw [hline] at hinner
    exact hbracket (List.cons.inj hinner).1
  · rw [trim_concat_blank (by decide), htrimmed.trim_eq]
  · rw [hrest]
    exact unquotes_iff.mpr rfl

theorem isKey_placeholder : IsKey "placeholder".toList := by
  refine ⟨⟨?_, ?_⟩, by decide, 'p', "laceholder".toList, rfl, by decide, by decide⟩
  · rintro c hc
    cases hc
    decide
  · rintro c hc
    cases hc
    decide

theorem getLast?_quoted (s : List Char) : ('"' :: (s ++ ['"'])).getLast? = some '"' := by
  rw [← List.cons_append, List.getLast?_concat]

theorem trimmed_quoted (s : List Char) : Trimmed ('"' :: (s ++ ['"'])) := by
  constructor
  · intro c hc
    cases hc
    decide
  · intro c hc
    cases (getLast?_quoted s).symm.trans hc
    decide

theorem quoted_iff (text : String) :
    (∃ inner, text.toList = '"' :: (inner ++ ['"'])) ↔
      2 ≤ text.utf8ByteSize ∧ text.toList.head? = some '"' ∧ text.toList.getLast? = some '"' := by
  constructor
  · rintro ⟨inner, htext⟩
    refine ⟨?_, by rw [htext]; rfl, by rw [htext, getLast?_quoted]⟩
    obtain rfl : text = "\"" ++ String.ofList inner ++ "\"" := by
      apply String.toList_injective
      simp [htext]
    have hquote : "\"".utf8ByteSize = 1 := rfl
    simp only [String.utf8ByteSize_append, hquote]
    omega
  · rintro ⟨hsize, hhead, hlast⟩
    obtain ⟨rest, hrest⟩ := List.head?_eq_some_iff.mp hhead
    rcases List.eq_nil_or_concat rest with rfl | ⟨inner, c, rfl⟩
    · -- A single quotation mark is one byte.
      obtain rfl : text = "\"" := String.toList_injective hrest
      exact absurd hsize (by decide)
    · rw [List.concat_eq_append] at hrest
      rw [hrest, ← List.cons_append, List.getLast?_concat] at hlast
      cases hlast
      exact ⟨inner, hrest⟩

theorem length_unquote_le (s : List Char) : (unquote s).length ≤ s.length := by
  have h : Unquotes s (unquote s) := unquotes_iff.mpr rfl
  generalize unquote s = value at h
  cases h with
  | quoted value =>
    rw [List.length_cons, List.length_append]
    omega
  | bare => exact le_rfl

/-- A bare value is read as it is written exactly if nothing is taken away from it. -/
theorem unquote_trim_eq_self_iff (s : List Char) :
    unquote (trim s) = s ↔ trim s = s ∧ ∀ inner, s ≠ '"' :: (inner ++ ['"']) := by
  constructor
  · intro h
    have hle := length_unquote_le (trim s)
    rw [h] at hle
    have htrim := trim_eq_of_length_le hle
    refine ⟨htrim, ?_⟩
    rintro inner rfl
    rw [htrim, unquotes_iff.mp (.quoted inner)] at h
    have hlength := congrArg List.length h
    rw [List.length_cons, List.length_append] at hlength
    omega
  · rintro ⟨htrim, hquoted⟩
    rw [htrim]
    exact unquotes_iff.mp (.bare hquoted)

theorem IsEntry.subset {line key value : List Char} (h : IsEntry line key value) :
    value ⊆ line := by
  obtain ⟨-, -, before, after, hline, -, -, hvalue⟩ := h
  have hafter : trim after ⊆ line := by
    intro c hc
    apply trim_subset
    rw [hline]
    simp [trim_subset after hc]
  generalize trim after = shown at hvalue hafter
  cases hvalue with
  | quoted => exact fun c hc => hafter (by simp [hc])
  | bare => exact hafter

theorem notMem_of_placeholder {content text : String}
    (h : (parse content).placeholder = some text) : '\n' ∉ text.toList := by
  have hsplits := splits_lines content.toList
  have htold := (declaredBy_parse hsplits).placeholder
  rw [h] at htold
  cases htold with
  | @told above line below _ htexts htells =>
    obtain ⟨-, value, hentry, hmeans⟩ := htells
    have hline : line ∈ lines content.toList := by simp [htexts]
    rw [hmeans]
    exact fun hmem => hsplits.notMem line hline (hentry.subset hmem)

theorem ofChars_placeholder (text : List Char) :
    Line.ofChars ("placeholder = ".toList ++ text) =
      .entry "placeholder".toList (unquote (trim text)) := by
  have hpair := ofChars_pair isKey_placeholder (' ' :: text)
  have htrim : trim (' ' :: text) = trim text := rfl
  rwa [htrim] at hpair

theorem set_placeholder (s : Settings) (value : List Char) :
    s.set "placeholder".toList value = { s with placeholder := some (String.ofList value) } := by
  rw [set, if_neg (by decide), if_pos rfl]

theorem ofChars_generate : Line.ofChars "[generate]".toList = .header "generate".toList := by
  decide

def clearWord (clear : Bool) : String :=
  if clear then "true" else "false"

theorem set_clearWord (s : Settings) (clear : Bool) :
    s.set "clear_cell".toList (clearWord clear).toList = { s with clearCell := clear } := by
  cases clear <;> rfl

theorem parse_quoted (clear : Bool) {text : String} (ended : Bool) (h : '\n' ∉ text.toList) :
    parse (fileOf ["[generate]", "clear_cell = " ++ clearWord clear,
      "placeholder = \"" ++ text ++ "\""] ended) = ⟨clear, some text⟩ := by
  have hlines : ∀ t ∈ ["[generate]", "clear_cell = " ++ clearWord clear,
      "placeholder = \"" ++ text ++ "\""], t ≠ "" ∧ '\n' ∉ t.toList := by
    cases clear <;> simp [clearWord, h]
  have hclear : Line.ofChars ("clear_cell = " ++ clearWord clear).toList =
      .entry "clear_cell".toList (clearWord clear).toList := by
    cases clear <;> decide
  have hplaceholder : Line.ofChars ("placeholder = \"" ++ text ++ "\"").toList =
      .entry "placeholder".toList text.toList := by
    have hentry := ofChars_placeholder ('"' :: (text.toList ++ ['"']))
    rw [(trimmed_quoted _).trim_eq, unquotes_iff.mp (.quoted _)] at hentry
    simpa using hentry
  rw [parse, map_ofChars_lines_fileOf ended hlines, List.map_cons, List.map_cons, List.map_cons,
    List.map_nil, ofChars_generate, hclear, hplaceholder]
  simp only [ofLines, decide_true, if_true, set_clearWord, set_placeholder, String.ofList_toList]

theorem parse_bare {text : String} (ended : Bool) (h : '\n' ∉ text.toList) :
    (parse (fileOf ["[generate]", "placeholder = " ++ text] ended)).placeholder =
      some (String.ofList (unquote (trim text.toList))) := by
  have hlines : ∀ t ∈ ["[generate]", "placeholder = " ++ text], t ≠ "" ∧ '\n' ∉ t.toList := by
    simp [h]
  have hplaceholder : Line.ofChars ("placeholder = " ++ text).toList =
      .entry "placeholder".toList (unquote (trim text.toList)) := by
    rw [String.toList_append]
    exact ofChars_placeholder text.toList
  rw [parse, map_ofChars_lines_fileOf ended hlines, List.map_cons, List.map_cons, List.map_nil,
    ofChars_generate, hplaceholder]
  simp only [ofLines, decide_true, if_true, set_placeholder]

/-- Settings come back from a file in which the placeholder stands in quotes; without quotes exactly
if it is trimmed and not in quotes of its own. -/
theorem settings_survive_writing :
    (∀ (clear : Bool) (text : String) (ended : Bool), '\n' ∉ text.toList →
      parse (fileOf ["[generate]", "clear_cell = " ++ clearWord clear,
        "placeholder = \"" ++ text ++ "\""] ended) = ⟨clear, some text⟩) ∧
    (∀ (text : String) (ended : Bool),
      (parse (fileOf ["[generate]", "placeholder = " ++ text] ended)).placeholder = some text ↔
        '\n' ∉ text.toList ∧ trim text.toList = text.toList ∧
          ¬(2 ≤ text.utf8ByteSize ∧ text.toList.head? = some '"' ∧
            text.toList.getLast? = some '"')) ∧
    ∀ content text : String, (parse content).placeholder = some text → '\n' ∉ text.toList := by
  refine ⟨fun clear _ ended h => parse_quoted clear ended h, ?_,
    fun _ _ h => notMem_of_placeholder h⟩
  intro text ended
  have hback (hline : '\n' ∉ text.toList) :
      (parse (fileOf ["[generate]", "placeholder = " ++ text] ended)).placeholder = some text ↔
        trim text.toList = text.toList ∧
          ¬(2 ≤ text.utf8ByteSize ∧ text.toList.head? = some '"' ∧
            text.toList.getLast? = some '"') := by
    rw [parse_bare ended hline, Option.some_inj, ← String.toList_inj, String.toList_ofList,
      unquote_trim_eq_self_iff, ← quoted_iff, not_exists]
  constructor
  · intro h
    have hline := notMem_of_placeholder h
    exact ⟨hline, (hback hline).mp h⟩
  · rintro ⟨hline, h⟩
    exact (hback hline).mpr h

theorem settings_survive_writing_with_quotes :
    '\n' ∉ " \"a\" = [b] # \r".toList ∧
    parse (fileOf ["[generate]", "clear_cell = true", "placeholder = \" \"a\" = [b] # \r\""]
      true) = ⟨true, some " \"a\" = [b] # \r"⟩ := by
  have hline : '\n' ∉ " \"a\" = [b] # \r".toList := by decide
  exact ⟨hline, settings_survive_writing.1 true " \"a\" = [b] # \r" true hline⟩

end Settings

end TapeScribe
