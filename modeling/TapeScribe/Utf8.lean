namespace TapeScribe

namespace Utf8

def encode (s : String) : List UInt8 :=
  s.toList.flatMap String.utf8EncodeChar

def decode? (bytes : List UInt8) : Option String :=
  String.fromUTF8? bytes.toByteArray

theorem encode_append (s t : String) : encode (s ++ t) = encode s ++ encode t := by
  rw [encode, String.toList_append, List.flatMap_append]
  rfl

theorem toByteArray_encode (s : String) : (encode s).toByteArray = s.toByteArray := by
  change s.toList.utf8Encode = _
  simp

theorem length_encode (s : String) : (encode s).length = s.utf8ByteSize := by
  rw [← String.size_toByteArray, ← toByteArray_encode, List.size_toByteArray]

theorem decode?_eq_some_iff {bytes : List UInt8} {s : String} :
    decode? bytes = some s ↔ bytes = encode s := by
  unfold decode? String.fromUTF8?
  constructor
  · intro h
    split at h
    next hv =>
      apply List.toByteArray_inj.mp
      rw [toByteArray_encode, ← Option.some.inj h]
      rfl
    next => simp at h
  · rintro rfl
    have hv : (encode s).toByteArray.IsValidUTF8 := ⟨s.toList, rfl⟩
    rw [dif_pos hv]
    congr 1
    apply String.toByteArray_inj.mp
    exact toByteArray_encode s

theorem decode?_encode (s : String) : decode? (encode s) = some s :=
  decode?_eq_some_iff.mpr rfl

theorem encode_injective {s t : String} (h : encode s = encode t) : s = t := by
  have hs := decode?_encode s
  rw [h, decode?_encode] at hs
  exact (Option.some.inj hs).symm

theorem decode?_eq_none_iff {bytes : List UInt8} :
    decode? bytes = none ↔ ∀ s, bytes ≠ encode s := by
  simp [Option.eq_none_iff_forall_ne_some, decode?_eq_some_iff]

/-- For a lead byte: how many bytes it asks for, and the bounds of the first of them. -/
def continuation (lead : UInt8) : Nat × UInt8 × UInt8 :=
  if 0xC2 ≤ lead ∧ lead ≤ 0xDF then (1, 0x80, 0xBF)
  else if lead = 0xE0 then (2, 0xA0, 0xBF)
  else if lead = 0xED then (2, 0x80, 0x9F)
  else if 0xE1 ≤ lead ∧ lead ≤ 0xEF then (2, 0x80, 0xBF)
  else if lead = 0xF0 then (3, 0x90, 0xBF)
  else if 0xF1 ≤ lead ∧ lead ≤ 0xF3 then (3, 0x80, 0xBF)
  else if lead = 0xF4 then (3, 0x80, 0x8F)
  else (0, 0, 0)

/-- How many of the bytes after `lead` still begin a well-formed character with it. -/
def begun (lead : UInt8) (rest : List UInt8) : Nat :=
  let (owed, low, high) := continuation lead
  match rest.take owed with
  | [] => 0
  | b :: r =>
    if low ≤ b ∧ b ≤ high then (r.takeWhile (fun b => 0x80 ≤ b ∧ b ≤ 0xBF)).length + 1 else 0

/-- Any bytes as text, with one replacement character for each beginning of a character that cannot
be read. -/
def display : List UInt8 → List Char
  | [] => []
  | lead :: rest =>
    match (lead :: rest.take 3).toByteArray.utf8DecodeChar? 0 with
    | some c => c :: display (rest.drop (c.utf8Size - 1))
    | none => '\uFFFD' :: display (rest.drop (begun lead rest))
termination_by bytes => bytes.length
decreasing_by all_goals simp only [List.length_drop, List.length_cons]; omega

theorem display_append (c : Char) (rest : List UInt8) :
    display (String.utf8EncodeChar c ++ rest) = c :: display rest := by
  have hlength := String.length_utf8EncodeChar c
  have hpos := c.utf8Size_pos
  have hfour := c.utf8Size_le_four
  obtain ⟨lead, tail, hc⟩ := List.exists_cons_of_length_pos (hlength ▸ hpos)
  rw [hc, List.length_cons] at hlength
  have htail : tail.length = c.utf8Size - 1 := by omega
  have htake : (tail ++ rest).take 3 = tail ++ rest.take (3 - tail.length) := by
    rw [List.take_append, List.take_of_length_le (by omega)]
  have hdecode : (lead :: (tail ++ rest).take 3).toByteArray.utf8DecodeChar? 0 = some c := by
    rw [htake, ← List.cons_append, ← hc, List.toByteArray_append]
    exact ByteArray.utf8DecodeChar?_utf8EncodeChar_append
  rw [hc, List.cons_append, display, hdecode]
  simp only [List.drop_left' htail]

/-- What is well formed is shown as it stands. -/
theorem display_encode (s : String) : display (encode s) = s.toList := by
  rw [encode]
  induction s.toList with
  | nil => rw [List.flatMap_nil, display]
  | cons c chars ih => rw [List.flatMap_cons, display_append, ih]

end Utf8

end TapeScribe
