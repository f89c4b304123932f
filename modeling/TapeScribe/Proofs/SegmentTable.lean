import Mathlib.Data.List.Forall2
import Mathlib.Data.List.Induction
import TapeScribe.Proofs.WellFormed
import TapeScribe.SegmentTable

namespace TapeScribe

/-- One of the characters of the text has bytes on both sides of a cut after so many bytes. -/
def CutsCharacter (n : Nat) (text : String) : Prop :=
  ∃ (front : String) (c : Char) (rest : String), text = front ++ String.singleton c ++ rest ∧
    front.utf8ByteSize < n ∧ n < front.utf8ByteSize + c.utf8Size

theorem cutsCharacter_iff {n : Nat} {text : String} :
    CutsCharacter n text ↔ ∃ front c rest, text.toList = front ++ c :: rest ∧
      (front.map Char.utf8Size).sum < n ∧ n < (front.map Char.utf8Size).sum + c.utf8Size := by
  constructor
  · rintro ⟨front, c, rest, rfl, hlow, hhigh⟩
    rw [Utf8.utf8ByteSize_eq_sum] at hlow hhigh
    exact ⟨front.toList, c, rest.toList, by simp, hlow, hhigh⟩
  · rintro ⟨front, c, rest, htext, hlow, hhigh⟩
    refine ⟨String.ofList front, c, String.ofList rest, ?_, ?_, ?_⟩
    · apply String.ext
      simp [htext]
    · rwa [Utf8.utf8ByteSize_eq_sum, String.toList_ofList]
    · rwa [Utf8.utf8ByteSize_eq_sum, String.toList_ofList]

/-- Text in which each character is one byte can be cut anywhere. -/
theorem Spelled.not_cutsCharacter {code : String} (h : Spelled code) (n : Nat) :
    ¬CutsCharacter n code := by
  rw [cutsCharacter_iff]
  rintro ⟨front, c, rest, hcode, hlow, hhigh⟩
  have hc : c.utf8Size = 1 := h.utf8Size (by simp [hcode])
  omega

theorem Program.spelled_code {p : Program} (h : Spelled p.text) {s : Segment}
    (hs : s ∈ p.segments) : Spelled s.code := by
  intro c hc
  apply h
  rw [toList_text]
  exact List.mem_flatMap.mpr ⟨s, hs, hc⟩

namespace SegmentTable

theorem firstBytes?_eq_none_iff {n : Nat} {chars : List Char} :
    firstBytes? n chars = none ↔ ∃ front c rest, chars = front ++ c :: rest ∧
      (front.map Char.utf8Size).sum < n ∧ n < (front.map Char.utf8Size).sum + c.utf8Size := by
  fun_induction firstBytes? n chars with
  | case1 n => simp
  | case2 c rest => simp
  | case3 n c rest hn hc ih =>
    rw [Option.map_eq_none_iff, ih]
    constructor
    · rintro ⟨front, d, more, rfl, hlow, hhigh⟩
      refine ⟨c :: front, d, more, rfl, ?_, ?_⟩ <;> simp only [List.map_cons, List.sum_cons] <;>
        omega
    · rintro ⟨front, d, more, heq, hlow, hhigh⟩
      cases front with
      | nil =>
        obtain ⟨rfl, rfl⟩ := List.cons.inj heq
        simp only [List.map_nil, List.sum_nil] at hhigh
        omega
      | cons e front =>
        obtain ⟨rfl, rfl⟩ := List.cons.inj heq
        simp only [List.map_cons, List.sum_cons] at hlow hhigh
        exact ⟨front, d, more, rfl, by omega, by omega⟩
  | case4 n c rest hn hc =>
    have hpos : 0 < n := Nat.pos_of_ne_zero hn
    refine iff_of_true rfl ⟨[], c, rest, rfl, ?_, ?_⟩ <;> simp only [List.map_nil, List.sum_nil] <;>
      omega

/-- What is taken is a beginning of the text. It is shorter than asked for only if it is all. -/
theorem firstBytes?_eq_some {n : Nat} {chars front : List Char}
    (h : firstBytes? n chars = some front) :
    ∃ rest, chars = front ++ rest ∧
      ((front.map Char.utf8Size).sum = n ∨
        rest = [] ∧ (front.map Char.utf8Size).sum ≤ n) := by
  fun_induction firstBytes? n chars generalizing front with
  | case1 n =>
    cases h
    exact ⟨[], rfl, Or.inr ⟨rfl, Nat.zero_le n⟩⟩
  | case2 c rest =>
    cases h
    exact ⟨c :: rest, rfl, Or.inl rfl⟩
  | case3 n c rest hn hc ih =>
    obtain ⟨front, hfront, rfl⟩ := Option.map_eq_some_iff.mp h
    obtain ⟨more, rfl, hsize⟩ := ih hfront
    refine ⟨more, rfl, ?_⟩
    simp only [List.map_cons, List.sum_cons]
    rcases hsize with hsize | ⟨hnil, hsize⟩
    · exact Or.inl (by omega)
    · exact Or.inr ⟨hnil, by omega⟩
  | case4 => cases h

/-- How much of a code is shown: all of it, or its first 40 bytes and a mark. -/
inductive IsExcerpt (code : String) : String → Prop
  | whole : code.utf8ByteSize ≤ 40 → IsExcerpt code code
  | cut {front rest : String} : 40 < code.utf8ByteSize → code = front ++ rest →
      front.utf8ByteSize = 40 → IsExcerpt code (front ++ "...")

theorem excerpt?_eq_none_iff {code : String} :
    excerpt? code = none ↔ 40 < code.utf8ByteSize ∧ CutsCharacter 40 code := by
  unfold excerpt? shownBytes
  split
  next h => simp [Nat.not_lt.mpr h]
  next h =>
    rw [Option.map_eq_none_iff, firstBytes?_eq_none_iff, cutsCharacter_iff]
    exact (and_iff_right (Nat.lt_of_not_le h)).symm

theorem isExcerpt_of_excerpt? {code excerpt : String} (h : excerpt? code = some excerpt) :
    IsExcerpt code excerpt := by
  unfold excerpt? shownBytes at h
  split at h
  next hsize =>
    cases h
    exact .whole hsize
  next hsize =>
    obtain ⟨front, hfront, rfl⟩ := Option.map_eq_some_iff.mp h
    obtain ⟨rest, hcode, hfront⟩ := firstBytes?_eq_some hfront
    have hlong := Utf8.utf8ByteSize_eq_sum code
    have hall : (front.map Char.utf8Size).sum = 40 := by
      rcases hfront with hfront | ⟨rfl, hfront⟩
      · exact hfront
      · rw [hcode, List.append_nil] at hlong
        omega
    have htext : code = String.ofList front ++ String.ofList rest := by
      apply String.ext
      simp [hcode]
    refine .cut (by omega) htext ?_
    rwa [Utf8.utf8ByteSize_eq_sum, String.toList_ofList]

/-- The row of a segment: its place among the segments and in the text, its size, note and code. -/
structure IsRow (p : Program) (before : List Segment) (s : Segment) (r : Row) : Prop where
  index : r.index = before.length
  offset : r.offset = (before.map fun s => s.code.utf8ByteSize).sum
  size : r.size = s.code.utf8ByteSize
  note : r.note = s.note
  excerpt : IsExcerpt s.code r.excerpt
  slice : ((Utf8.encode p.text).drop r.offset).take r.size = Utf8.encode s.code

theorem rowsFrom?_cons_eq_some_iff {index offset : Nat} {s : Segment} {rest : List Segment}
    {rows : List Row} :
    rowsFrom? index offset (s :: rest) = some rows ↔
      ∃ excerpt more, excerpt? s.code = some excerpt ∧
        rowsFrom? (index + 1) (offset + s.code.utf8ByteSize) rest = some more ∧
        rows = ⟨index, offset, s.code.utf8ByteSize, s.note, excerpt⟩ :: more := by
  rw [rowsFrom?]
  split
  next e more he hmore =>
    rw [he, hmore]
    constructor
    · intro h
      cases h
      exact ⟨e, more, rfl, rfl, rfl⟩
    · rintro ⟨e, more, he, hmore, rfl⟩
      cases he
      cases hmore
      rfl
  next h =>
    constructor
    · intro h
      cases h
    · rintro ⟨e, more, he, hmore, -⟩
      exact absurd hmore (h e more he)

theorem rowsFrom?_eq_none_iff {segments : List Segment} {index offset : Nat} :
    rowsFrom? index offset segments = none ↔ ∃ s ∈ segments, excerpt? s.code = none := by
  induction segments generalizing index offset with
  | nil => simp [rowsFrom?]
  | cons s rest ih =>
    have hrest : rowsFrom? (index + 1) (offset + s.code.utf8ByteSize) rest = none ↔ _ := ih
    rw [List.exists_mem_cons_iff, ← hrest, rowsFrom?]
    cases excerpt? s.code <;>
      cases rowsFrom? (index + 1) (offset + s.code.utf8ByteSize) rest <;> simp

theorem length_rowsFrom? {segments : List Segment} {index offset : Nat} {rows : List Row}
    (h : rowsFrom? index offset segments = some rows) : rows.length = segments.length := by
  induction segments generalizing index offset rows with
  | nil =>
    cases h
    rfl
  | cons s rest ih =>
    obtain ⟨e, more, -, hmore, rfl⟩ := rowsFrom?_cons_eq_some_iff.mp h
    rw [List.length_cons, List.length_cons, ih hmore]

/-- The place of a row is counted on over the segments in front of it. -/
theorem getElem?_rowsFrom? {before after : List Segment} {s : Segment} {index offset : Nat}
    {rows : List Row} (h : rowsFrom? index offset (before ++ s :: after) = some rows) :
    ∃ excerpt, excerpt? s.code = some excerpt ∧
      rows[before.length]? = some ⟨index + before.length,
        offset + (before.map fun s => s.code.utf8ByteSize).sum, s.code.utf8ByteSize, s.note,
        excerpt⟩ := by
  induction before generalizing index offset rows with
  | nil =>
    obtain ⟨e, more, he, -, rfl⟩ := rowsFrom?_cons_eq_some_iff.mp h
    exact ⟨e, he, rfl⟩
  | cons t before ih =>
    obtain ⟨e, more, -, hmore, rfl⟩ := rowsFrom?_cons_eq_some_iff.mp h
    obtain ⟨e, he, hrow⟩ := ih hmore
    refine ⟨e, he, ?_⟩
    rw [List.length_cons, List.getElem?_cons_succ, hrow, List.map_cons, List.sum_cons]
    congr 2 <;> omega

theorem isRow_of_rowsFrom? {p : Program} {before after : List Segment} {s : Segment}
    {rows : List Row} (hp : p.segments = before ++ s :: after)
    (h : rowsFrom? 0 0 p.segments = some rows) :
    ∃ r, rows[before.length]? = some r ∧ IsRow p before s r := by
  rw [hp] at h
  obtain ⟨excerpt, hexcerpt, hrow⟩ := getElem?_rowsFrom? h
  refine ⟨_, hrow, Nat.zero_add _, Nat.zero_add _, rfl, rfl, isExcerpt_of_excerpt? hexcerpt, ?_⟩
  have hfront : (before.flatMap fun s => Utf8.encode s.code).length =
      0 + (before.map fun s => s.code.utf8ByteSize).sum := by
    rw [List.length_flatMap, Nat.zero_add]
    simp only [Utf8.length_encode]
  rw [Program.encode_text, hp, List.flatMap_append, List.flatMap_cons, List.drop_left' hfront,
    List.take_left' (Utf8.length_encode s.code)]

/-- The last row ends where the text ends. -/
theorem size_eq_end {p : Program} {rows : List Row} (h : rowsFrom? 0 0 p.segments = some rows) :
    p.size = (rows.getLast?.map fun r => r.offset + r.size).getD 0 := by
  have hlength := length_rowsFrom? h
  rw [Program.size_eq_sum]
  rcases p.segments.eq_nil_or_concat' with hp | ⟨before, s, hp⟩
  · rw [hp] at hlength ⊢
    rw [List.length_eq_zero_iff.mp hlength]
    rfl
  · obtain ⟨r, hrow, hr⟩ := isRow_of_rowsFrom? hp h
    have hlast : rows.getLast? = some r := by
      rw [List.getLast?_eq_getElem?, hlength, hp, List.length_append, List.length_singleton]
      exact hrow
    rw [hlast, hp, List.map_append, List.sum_append]
    simp [hr.offset, hr.size]

/-- A value in a column: blanks behind it fill the column, and one that is too long goes beyond. -/
def Fills (width : Nat) (value cell : String) : Prop :=
  ∃ blanks, cell = value ++ String.ofList (List.replicate blanks ' ') ∧
    cell.length = max width value.length

theorem fills_pad (width : Nat) (value : String) : Fills width value (pad width value) := by
  refine ⟨width - value.length, rfl, ?_⟩
  rw [pad, String.length_append, String.length_ofList, List.length_replicate]
  omega

/-- A line with the five values of a row in columns. -/
def Row.ShownBy (r : Row) (line : String) : Prop :=
  ∃ index offset size note, Fills 4 (toString r.index) index ∧
    Fills 5 (toString r.offset) offset ∧ Fills 4 (toString r.size) size ∧ Fills 40 r.note note ∧
    line = index ++ " | " ++ offset ++ " | " ++ size ++ " | " ++ note ++ " | " ++ r.excerpt ++ "\n"

theorem Row.shownBy_line (r : Row) : r.ShownBy r.line :=
  ⟨_, _, _, _, fills_pad _ _, fills_pad _ _, fills_pad _ _, fills_pad _ _, rfl⟩

/-- A table of all segments in their order, between a heading of two lines and the totals. -/
structure IsTable (p : Program) (rows : List Row) (table : String) : Prop where
  length_rows : rows.length = p.segments.length
  row : ∀ before s after, p.segments = before ++ s :: after →
    ∃ r, rows[before.length]? = some r ∧ IsRow p before s r
  size_eq_end : p.size = (rows.getLast?.map fun r => r.offset + r.size).getD 0
  shown : ∃ shown, List.Forall₂ Row.ShownBy rows shown ∧
    table =
      "SEG  | AT    | LEN  | NOTE                                     | CODE\n" ++
      "-----+-------+------+------------------------------------------" ++
      "+------------------------------------------\n" ++
      String.join shown ++
      ("total: " ++ toString p.size ++ " instructions in " ++ toString p.segments.length ++
        " segments\n")

theorem render?_eq_none_iff {p : Program} :
    render? p = none ↔
      ∃ s ∈ p.segments, 40 < s.code.utf8ByteSize ∧ CutsCharacter 40 s.code := by
  rw [render?, Option.map_eq_none_iff, rows?, rowsFrom?_eq_none_iff]
  simp only [excerpt?_eq_none_iff]

theorem isTable_of_render? {p : Program} {table : String} (h : render? p = some table) :
    ∃ rows, IsTable p rows table := by
  obtain ⟨rows, hrows, rfl⟩ := Option.map_eq_some_iff.mp h
  have hshown : List.Forall₂ Row.ShownBy rows (rows.map Row.line) :=
    List.forall₂_map_right_iff.mpr (List.forall₂_same.mpr fun r _ => r.shownBy_line)
  exact ⟨rows, length_rowsFrom? hrows, fun before s after hp => isRow_of_rowsFrom? hp hrows,
    size_eq_end hrows, _, hshown, rfl⟩

/-- The code of a program has no character that a cut could fall into. -/
theorem exists_render {p : Program} (h : Spelled p.text) :
    ∃ table, render? p = some table ∧ table ≠ "" := by
  cases htable : render? p with
  | none =>
    obtain ⟨s, hs, -, hcut⟩ := render?_eq_none_iff.mp htable
    exact absurd hcut ((Program.spelled_code h hs).not_cutsCharacter 40)
  | some table =>
    refine ⟨table, rfl, ?_⟩
    obtain ⟨rows, hrows, rfl⟩ := Option.map_eq_some_iff.mp htable
    simp [totalLine]

end SegmentTable

open SegmentTable

/-- The table fails only where it would cut a character, as in no program that is written here. Else
it tells where the code of each segment stands in the text. -/
theorem segment_table_is_faithful :
    (∀ p : Program,
      (render? p = none ↔
        ∃ s ∈ p.segments, 40 < s.code.utf8ByteSize ∧ CutsCharacter 40 s.code) ∧
      ∀ table, render? p = some table → ∃ rows, IsTable p rows table) ∧
    ∀ (request : Request) (options : Options),
      ∃ table, render? (request.program options) = some table := by
  refine ⟨fun p => ⟨render?_eq_none_iff, fun table => isTable_of_render?⟩, ?_⟩
  intro request options
  obtain ⟨table, htable, -⟩ := exists_render (request.spelled_program options)
  exact ⟨table, htable⟩

/-- A wide character stands on the cut in the one program, and behind long code in the other. -/
theorem segment_table_is_faithful_for_wide_characters :
    render? (.ofList [⟨"cut", Instruction.increment.repeated 39 ++ "é"⟩]) = none ∧
    ∃ (table : String) (rows : List Row) (r : Row),
      render? (.ofList [⟨"long", Instruction.increment.repeated 41⟩, ⟨"wide", "é."⟩]) =
        some table ∧
      rows[1]? = some r ∧ r.index = 1 ∧ r.offset = 41 ∧ r.size = 3 ∧ r.note = "wide" := by
  obtain ⟨hall, -⟩ := segment_table_is_faithful
  obtain ⟨hcut, -⟩ := hall (.ofList [⟨"cut", Instruction.increment.repeated 39 ++ "é"⟩])
  obtain ⟨-, hmade⟩ :=
    hall (.ofList [⟨"long", Instruction.increment.repeated 41⟩, ⟨"wide", "é."⟩])
  refine ⟨hcut.mpr ⟨_, List.mem_singleton_self _, by decide, ?_⟩, ?_⟩
  · exact ⟨Instruction.increment.repeated 39, 'é', "", rfl, by decide, by decide⟩
  · obtain ⟨table, htable⟩ : ∃ table, render?
        (.ofList [⟨"long", Instruction.increment.repeated 41⟩, ⟨"wide", "é."⟩]) = some table :=
      ⟨_, rfl⟩
    obtain ⟨rows, hrows⟩ := hmade table htable
    obtain ⟨r, hr, hrow⟩ := hrows.row [⟨"long", Instruction.increment.repeated 41⟩] ⟨"wide", "é."⟩
      [] rfl
    exact ⟨table, rows, r, htable, hr, hrow.index, hrow.offset, hrow.size, hrow.note⟩

end TapeScribe
