import TapeScribe.Proofs.Numeral
import TapeScribe.Proofs.ScalarEncoding
import TapeScribe.Proofs.TextLines
import TapeScribe.Request

namespace TapeScribe

/-- What the first argument after a reading mode comes to. An error keeps it as it was given. -/
inductive StopKind.Classifies : StopKind → List String → Except ArgumentError Stop → Prop
  | missingCount : Classifies .count [] (.error .missingCount)
  | count {first words n} : Numeral (trim first.toList) n → n ≤ 1000000 →
      Classifies .count (first :: words) (.ok (.count n))
  | countTooLarge {first words n} : Numeral (trim first.toList) n → 1000000 < n →
      Classifies .count (first :: words) (.error (.countTooLarge first))
  | invalidCount {first words} : (∀ n, ¬Numeral (trim first.toList) n) →
      Classifies .count (first :: words) (.error (.invalidCount first))
  | missingDelimiter : Classifies .delimiter [] (.error .missingDelimiter)
  | delimiter {first words c d} : first.toList = [c] → c.toNat < 128 → d.toNat = c.toNat →
      Classifies .delimiter (first :: words) (.ok (.delimiter d))
  | invalidDelimiter {first words} : (∀ c, first.toList = [c] → ¬c.toNat < 128) →
      Classifies .delimiter (first :: words) (.error (.invalidDelimiter first))

variable {argument first : String} {words arguments : List String} {n : Nat}

namespace StopKind

/-- A number that has no room in a machine word is larger than every count too. -/
theorem parseCount_of_numeral (h : Numeral (trim argument.toList) n) :
    parseCount argument =
      if n ≤ maxCount then .ok (.count n) else .error (.countTooLarge argument) := by
  obtain ⟨hne, hdigits, rfl⟩ := Decimal.numeral_iff.mp h
  have hnumeral := Numeral.digits hne hdigits
  simp only [parseCount]
  rw [if_pos ⟨hne, List.all_eq_true.mpr hdigits⟩]
  generalize Nat.ofDigitChars 10 (Decimal.unsigned (trim argument.toList)) 0 = n at hnumeral
  by_cases hroom : n < UInt64.size
  · have hvalue : (UInt64.ofNatLT n hroom).toNat = n := UInt64.toNat_ofNatLT
    rw [← hvalue, ← Decimal.parse?_eq_some_iff] at hnumeral
    simp only [hnumeral, hvalue]
  · have hmax : maxCount < UInt64.size := by decide
    rw [Decimal.parse?_eq_none hnumeral (by omega), if_neg (by omega)]

theorem parseCount_of_not_numeral (h : ∀ n, ¬Numeral (trim argument.toList) n) :
    parseCount argument = .error (.invalidCount argument) := by
  simp only [parseCount]
  rw [if_neg]
  rintro ⟨hne, hdigits⟩
  exact h _ (Decimal.numeral_iff.mpr ⟨hne, List.all_eq_true.mp hdigits, rfl⟩)

theorem classifies_parse (kind : StopKind) (first : String) (words : List String) :
    kind.Classifies (first :: words) (kind.parse first) := by
  cases kind with
  | count =>
    by_cases h : ∃ n, Numeral (trim first.toList) n
    · obtain ⟨n, hn⟩ := h
      rw [parse, parseCount_of_numeral hn]
      split
      next hle => exact .count hn hle
      next hle => exact .countTooLarge hn (by simpa [maxCount] using hle)
    · rw [not_exists] at h
      rw [parse, parseCount_of_not_numeral h]
      exact .invalidCount h
  | delimiter =>
    simp only [parse]
    split
    next d hd =>
      obtain ⟨c, hc, hascii, hcode⟩ := Utf8.encode_eq_singleton_iff.mp hd
      exact .delimiter hc hascii hcode
    next hother =>
      refine .invalidDelimiter fun c hc hascii => hother c.toNat.toUInt8 ?_
      refine Utf8.encode_eq_singleton_iff.mpr ⟨c, hc, hascii, ?_⟩
      exact Nat.mod_eq_of_lt (show c.toNat < 2 ^ 8 by omega)

theorem Classifies.parse_eq {kind : StopKind} {outcome : Except ArgumentError Stop}
    (h : kind.Classifies (first :: words) outcome) : kind.parse first = outcome := by
  cases h with
  | count hn hle =>
    rw [parse, parseCount_of_numeral hn]
    exact if_pos hle
  | countTooLarge hn hlt =>
    rw [parse, parseCount_of_numeral hn]
    exact if_neg (Nat.not_le.mpr hlt)
  | invalidCount h => rw [parse, parseCount_of_not_numeral h]
  | delimiter hc hascii hcode =>
    rw [parse, Utf8.encode_eq_singleton_iff.mpr ⟨_, hc, hascii, hcode⟩]
  | invalidDelimiter h =>
    simp only [parse]
    split
    next d hd =>
      obtain ⟨c, hc, hascii, -⟩ := Utf8.encode_eq_singleton_iff.mp hd
      exact absurd hascii (h c hc)
    next => rfl

end StopKind

namespace Request

open StopKind

/-- What is asked for once the stop is known: more arguments are the lead-in of an echo. -/
def reading (echo : Bool) (arguments : List String) (stop : Stop) : Request :=
  .read stop (echo || 1 < arguments.length) (joinWords arguments.tail)

variable {kind : StopKind} {echo : Bool} {e : ArgumentError}

theorem parse_read_cons (kind : StopKind) (echo : Bool) (first : String) (words : List String) :
    parse (.read kind echo) (first :: words) =
      (kind.parse first).map (reading echo (first :: words)) := by
  have hecho : (!words.isEmpty) = decide (1 < (first :: words).length) := by
    cases words <;> simp
  rw [parse, hecho]
  rfl

theorem parse_read_eq_iff {result : Except ArgumentError Request} :
    parse (.read kind echo) arguments = result ↔
      ∃ outcome, kind.Classifies arguments outcome ∧
        result = outcome.map (reading echo arguments) := by
  cases arguments with
  | nil =>
    constructor
    · rintro rfl
      cases kind with
      | count => exact ⟨_, .missingCount, rfl⟩
      | delimiter => exact ⟨_, .missingDelimiter, rfl⟩
    · rintro ⟨outcome, h, rfl⟩
      cases h <;> rfl
  | cons first words =>
    rw [parse_read_cons]
    constructor
    · rintro rfl
      exact ⟨_, classifies_parse kind first words, rfl⟩
    · rintro ⟨outcome, h, rfl⟩
      rw [h.parse_eq]

theorem map_eq_error_iff {α β ε : Type} {x : Except ε α} {f : α → β} {e : ε} :
    x.map f = .error e ↔ x = .error e := by
  cases x <;> simp [Except.map]

/-- The arguments after the first one and the echo have no part in an error. -/
theorem parse_read_eq_error_iff {echo' : Bool} {arguments' : List String}
    (h : arguments'.head? = arguments.head?) :
    parse (.read kind echo') arguments' = .error e ↔ parse (.read kind echo) arguments = .error e := by
  cases arguments with
  | nil =>
    rw [List.head?_eq_none_iff.mp h]
    rfl
  | cons first words =>
    obtain ⟨words', rfl⟩ := List.head?_eq_some_iff.mp h
    rw [parse_read_cons, parse_read_cons, map_eq_error_iff, map_eq_error_iff]

end Request

/-- The first argument decides what is read, or what is wrong, whatever follows it. -/
theorem stop_arguments_classified (kind : StopKind) (echo : Bool) (arguments : List String) :
    (∀ result, Request.parse (.read kind echo) arguments = result ↔
      ∃ outcome, kind.Classifies arguments outcome ∧
        result = outcome.map fun stop =>
          .read stop (echo || 1 < arguments.length) (Request.joinWords arguments.tail)) ∧
    ∀ (echo' : Bool) (arguments' : List String) (e : ArgumentError),
      arguments'.head? = arguments.head? →
        (Request.parse (.read kind echo') arguments' = .error e ↔
          Request.parse (.read kind echo) arguments = .error e) :=
  ⟨fun _ => Request.parse_read_eq_iff, fun _ _ _ h => Request.parse_read_eq_error_iff h⟩

/-- The number is the first one that has no room in a machine word. -/
theorem stop_arguments_classified_past_word :
    StopKind.count.Classifies [" +018446744073709551616", "a"]
      (.error (.countTooLarge " +018446744073709551616")) ∧
    Request.parse (.read .count true) [" +018446744073709551616", "a"] =
      .error (.countTooLarge " +018446744073709551616") ∧
    [" +018446744073709551616"].head? = [" +018446744073709551616", "a"].head? ∧
    Request.parse (.read .count false) [" +018446744073709551616"] =
      .error (.countTooLarge " +018446744073709551616") := by
  have hnumeral : Numeral (trim " +018446744073709551616".toList) 18446744073709551616 :=
    .signed (by decide) (List.all_eq_true.mp rfl)
  have hlarge : StopKind.count.Classifies [" +018446744073709551616", "a"]
      (.error (.countTooLarge " +018446744073709551616")) := .countTooLarge hnumeral (by decide)
  obtain ⟨hresult, herror⟩ :=
    stop_arguments_classified .count true [" +018446744073709551616", "a"]
  have hparse := (hresult _).mpr ⟨_, hlarge, rfl⟩
  exact ⟨hlarge, hparse, rfl, (herror false [" +018446744073709551616"] _ rfl).mpr hparse⟩

end TapeScribe
