import Mathlib.Algebra.GroupWithZero.Nat
import Mathlib.Data.List.Count
import TapeScribe.Proofs.Printing
import TapeScribe.Proofs.ReaderText
import TapeScribe.Request

namespace TapeScribe

open Instruction

/-- In front of any cut at least as many loops start as end, and at most `depth` more; in the whole
code every loop ends. -/
structure Nested (depth : Nat) (code : List Instruction) : Prop where
  within : ∀ before, before <+: code →
    before.count .loopEnd ≤ before.count .loopStart ∧
      before.count .loopStart ≤ before.count .loopEnd + depth
  closed : code.count .loopStart = code.count .loopEnd

theorem Nested.mono {depth depth' : Nat} {code : List Instruction} (h : Nested depth code)
    (hd : depth ≤ depth') : Nested depth' code := by
  refine ⟨?_, h.closed⟩
  intro before hb
  obtain ⟨hle, hdeep⟩ := h.within before hb
  omega

theorem count_eq_zero_of_plain {code : List Instruction} (h : ∀ i ∈ code, i.IsPlain) :
    code.count .loopStart = 0 ∧ code.count .loopEnd = 0 := by
  constructor
  · exact List.count_eq_zero.mpr (fun hm => (h _ hm).1 rfl)
  · exact List.count_eq_zero.mpr (fun hm => (h _ hm).2 rfl)

theorem nested_of_plain {code : List Instruction} (h : ∀ i ∈ code, i.IsPlain) (depth : Nat) :
    Nested depth code := by
  refine ⟨?_, ?_⟩
  · intro before hb
    obtain ⟨hs, he⟩ := count_eq_zero_of_plain (fun i hi => h i (hb.subset hi))
    omega
  · obtain ⟨hs, he⟩ := count_eq_zero_of_plain h
    omega

/-- A cut falls into the first part, or behind it, where every loop has ended that has started. -/
theorem Nested.append {depth : Nat} {a b : List Instruction} (ha : Nested depth a)
    (hb : Nested depth b) : Nested depth (a ++ b) := by
  have hca := ha.closed
  have hcb := hb.closed
  refine ⟨?_, ?_⟩
  · rintro before ⟨rest, hr⟩
    rcases List.append_eq_append_iff.mp hr with ⟨more, rfl, -⟩ | ⟨more, rfl, rfl⟩
    · exact ha.within before (List.prefix_append _ _)
    · obtain ⟨hle, hdeep⟩ := hb.within more (List.prefix_append _ _)
      rw [List.count_append, List.count_append]
      omega
  · rw [List.count_append, List.count_append]
    omega

theorem Nested.loop {depth : Nat} {body : List Instruction} (h : Nested depth body) :
    Nested (depth + 1) (Instruction.loop body) := by
  have hc := h.closed
  refine ⟨?_, ?_⟩
  · intro before hp
    rcases List.prefix_cons_iff.mp hp with rfl | ⟨inner, rfl, hi⟩
    · simp
    · rcases List.prefix_concat_iff.mp hi with rfl | hi
      · simp [hc]
      · obtain ⟨hle, hdeep⟩ := h.within inner hi
        simp
        omega
  · simp [Instruction.loop, hc]

/-- Text that consists of the symbols of instructions. -/
def Spelled (code : String) : Prop :=
  ∀ c ∈ code.toList, c ∈ Instruction.all.map symbol

instance (code : String) : Decidable (Spelled code) :=
  List.decidableBAll (· ∈ Instruction.all.map symbol) code.toList

theorem symbol_mem (i : Instruction) : i.symbol ∈ Instruction.all.map symbol :=
  List.mem_map_of_mem (mem_all i)

theorem notMem_symbols_of_none {c : Char} (h : ofSymbol? c = none) :
    c ∉ Instruction.all.map symbol := by
  intro hc
  obtain ⟨i, -, rfl⟩ := List.mem_map.mp hc
  simp [ofSymbol?_symbol] at h

theorem Spelled.append {a b : String} (ha : Spelled a) (hb : Spelled b) : Spelled (a ++ b) := by
  intro c hc
  rw [String.toList_append] at hc
  exact (List.mem_append.mp hc).elim (ha c) (hb c)

theorem Spelled.utf8Size {code : String} (h : Spelled code) {c : Char} (hc : c ∈ code.toList) :
    c.utf8Size = 1 := by
  obtain ⟨i, -, rfl⟩ := List.mem_map.mp (h c hc)
  cases i <;> rfl

theorem Spelled.map_symbol {code : String} (h : Spelled code) :
    (ofCode code).map symbol = code.toList := by
  unfold Spelled at h
  unfold ofCode
  generalize code.toList = chars at h ⊢
  induction chars with
  | nil => rfl
  | cons c rest ih =>
    obtain ⟨i, -, rfl⟩ := List.mem_map.mp (h c (by simp))
    have hrest := ih (fun c hc => h c (by simp [hc]))
    simp [ofSymbol?_symbol, hrest]

theorem spelled_repeated (i : Instruction) (n : Nat) : Spelled (i.repeated n) := by
  intro c hc
  rw [toList_repeated] at hc
  rw [List.eq_of_mem_replicate hc]
  exact symbol_mem i

theorem spelled_walk (a b : UInt8) : Spelled (walk a b) :=
  (spelled_repeated .increment _).append (spelled_repeated .decrement _)

theorem mem_of_mem_intersperse {α : Type} {sep x : α} {l : List α} (h : x ∈ l.intersperse sep) :
    x = sep ∨ x ∈ l := by
  fun_induction List.intersperse sep l with
  | case1 => simp at h
  | case2 y => exact Or.inr h
  | case3 y l _ ih =>
    rcases List.mem_cons.mp h with rfl | h
    · simp
    · rcases List.mem_cons.mp h with rfl | h
      · simp
      · exact (ih h).imp_right (List.mem_cons_of_mem y)

theorem mem_seeds {n : Nat} {c : Char} (h : c ∈ (Stop.seeds n).toList) : c = '>' ∨ c = '+' := by
  rw [Stop.seeds, String.toList_ofList] at h
  exact (mem_of_mem_intersperse h).imp_right List.eq_of_mem_replicate

theorem spelled_seeds (n : Nat) : Spelled (Stop.seeds n) := by
  intro c hc
  rcases mem_seeds hc with rfl | rfl
  · exact symbol_mem .right
  · exact symbol_mem .increment

theorem plain_seeds (n : Nat) : ∀ i ∈ ofCode (Stop.seeds n), i.IsPlain := by
  intro i hi
  obtain ⟨c, hc, hci⟩ := List.mem_filterMap.mp hi
  have hs := symbol_ofSymbol? hci
  rcases mem_seeds hc with rfl | rfl <;> cases i <;> revert hs <;> decide

theorem plain_replicate {i : Instruction} (hi : i.IsPlain) (n : Nat) :
    ∀ j ∈ List.replicate n i, j.IsPlain :=
  fun _ hj => List.eq_of_mem_replicate hj ▸ hi

theorem plain_walk (a b : UInt8) : ∀ i ∈ ofCode (walk a b), i.IsPlain := by
  intro i hi
  rw [ofCode_walk] at hi
  rcases List.mem_append.mp hi with hi | hi
  · exact plain_replicate (by decide) _ i hi
  · exact plain_replicate (by decide) _ i hi

theorem Utf8.utf8ByteSize_eq_sum (s : String) :
    s.utf8ByteSize = (s.toList.map Char.utf8Size).sum := by
  rw [← length_encode, encode, List.length_flatMap]
  simp only [String.length_utf8EncodeChar]

namespace Program

theorem total_eq_sum (p : Program) (measure : Segment → Nat) :
    p.total measure = (p.segments.map measure).sum :=
  rfl

theorem count_eq (p : Program) (i : Instruction) : p.count i = p.text.toList.count i.symbol := by
  rw [count, total_eq_sum, toList_text, List.count_flatMap]
  rfl

theorem encode_text (p : Program) :
    Utf8.encode p.text = p.segments.flatMap (fun s => Utf8.encode s.code) := by
  rw [Utf8.encode, toList_text, List.flatMap_assoc]
  rfl

theorem size_eq_sum (p : Program) :
    p.size = (p.segments.map fun s => s.code.utf8ByteSize).sum :=
  p.total_eq_sum _

theorem size_eq (p : Program) : p.size = p.text.utf8ByteSize := by
  rw [size_eq_sum, ← Utf8.length_encode, encode_text, List.length_flatMap]
  simp only [Utf8.length_encode]

theorem spelled_ofList {l : List Segment} (h : ∀ s ∈ l, Spelled s.code) :
    Spelled (ofList l).text := by
  intro c hc
  rw [toList_text_ofList] at hc
  obtain ⟨s, hs, hc⟩ := List.mem_flatMap.mp hc
  exact h s hs c hc

theorem spelled_append {p q : Program} (hp : Spelled p.text) (hq : Spelled q.text) :
    Spelled (p ++ q).text := by
  rw [text_append]
  exact hp.append hq

/-- Nothing but instructions, matching loop ends, at most `depth` loops within each other, and sizes
that are those of the text. -/
structure WellFormed (depth : Nat) (p : Program) : Prop where
  symbols : ∀ c ∈ p.text.toList, c ∈ Instruction.all.map symbol
  within : ∀ before, before <+: p.text.toList →
    before.count ']' ≤ before.count '[' ∧ before.count '[' ≤ before.count ']' + depth
  closed : p.text.toList.count '[' = p.text.toList.count ']'
  code_ne : ∀ s ∈ p.segments, s.code ≠ ""
  size_eq_length : p.size = p.text.length
  size_eq_counts : p.size = (Instruction.all.map p.count).sum

theorem size_eq_length_of_spelled {p : Program} (h : Spelled p.text) : p.size = p.text.length := by
  have hone : ∀ c ∈ p.text.toList, c.utf8Size = 1 := fun c hc => h.utf8Size hc
  calc
    p.size = (p.text.toList.map Char.utf8Size).sum := by rw [size_eq, Utf8.utf8ByteSize_eq_sum]
    _ = (p.text.toList.map fun _ => 1).sum := by rw [List.map_congr_left hone]
    _ = p.text.length := by
      rw [List.map_const', List.sum_replicate_nat, Nat.mul_one, String.length_toList]

/-- Each instruction is counted under its own symbol, so together they are counted once. -/
theorem sum_count_all (code : List Instruction) :
    (Instruction.all.map (fun i => code.count i)).sum = code.length := by
  induction code with
  | nil => rfl
  | cons j code ih =>
    rw [List.length_cons, ← ih]
    cases j <;> simp [Instruction.all] <;> omega

theorem count_map_symbol (code : List Instruction) (i : Instruction) :
    (code.map symbol).count i.symbol = code.count i :=
  List.count_map_of_injective code symbol (fun _ _ => symbol_injective) i

/-- Between the symbols of instructions there may be anything else. -/
theorem count_ofCode (code : String) (i : Instruction) :
    (ofCode code).count i = code.toList.count i.symbol := by
  rw [ofCode]
  induction code.toList with
  | nil => rfl
  | cons c chars ih =>
    cases hc : ofSymbol? c with
    | none =>
      have hne : c ≠ i.symbol := fun h => notMem_symbols_of_none hc (h ▸ symbol_mem i)
      rw [List.filterMap_cons_none hc, ih, List.count_cons_of_ne hne]
    | some j =>
      rw [List.filterMap_cons_some hc, ← symbol_ofSymbol? hc, List.count_cons, List.count_cons, ih]
      by_cases hj : j = i
      · simp [hj]
      · have hne : j.symbol ≠ i.symbol := fun h => hj (symbol_injective h)
        simp [hj, hne]

theorem count_eq_instructions (p : Program) (i : Instruction) :
    p.count i = p.instructions.count i := by
  rw [count_eq, instructions, count_ofCode]

theorem sum_counts (p : Program) : (Instruction.all.map p.count).sum = p.instructions.length := by
  rw [funext p.count_eq_instructions, sum_count_all]

theorem wellFormed_of_nested {p : Program} {depth : Nat} (hs : Spelled p.text)
    (hn : Nested depth p.instructions) : p.WellFormed depth where
  symbols := hs
  within := by
    intro before hb
    rw [← hs.map_symbol] at hb
    obtain ⟨code, hcode, rfl⟩ := List.prefix_map_iff.mp hb
    have hstart := count_map_symbol code .loopStart
    have hend := count_map_symbol code .loopEnd
    have hin := hn.within code hcode
    rwa [← hstart, ← hend] at hin
  closed := by
    have hstart := count_map_symbol p.instructions .loopStart
    have hend := count_map_symbol p.instructions .loopEnd
    have hclosed := hn.closed
    rwa [← hstart, ← hend, instructions, hs.map_symbol] at hclosed
  code_ne := p.code_ne
  size_eq_length := size_eq_length_of_spelled hs
  size_eq_counts := by
    rw [size_eq_length_of_spelled hs, sum_counts, ← String.length_toList, ← hs.map_symbol,
      List.length_map]
    rfl

end Program

namespace Printer

/-- The code that a printer can write in one segment. -/
theorem code_of_mem_segments {p : Printer} {text : List UInt8} {s : Segment}
    (hs : s ∈ p.segments text) : s.code = "." ∨ s.code = ".>" ∨ ∃ a b, s.code = walk a b := by
  obtain ⟨layout, clear⟩ := p
  cases layout with
  | allCells =>
    obtain ⟨b, -, hs⟩ := List.mem_flatMap.mp hs
    simp only [List.mem_cons, List.not_mem_nil, or_false] at hs
    rcases hs with rfl | rfl
    · exact Or.inr (Or.inr ⟨0, b, rfl⟩)
    · exact Or.inr (Or.inl rfl)
  | oneCell =>
    rcases List.mem_append.mp hs with hs | hs
    · obtain ⟨⟨cursor, b⟩, -, hs⟩ := List.mem_flatMap.mp hs
      simp only [List.mem_cons, List.not_mem_nil, or_false] at hs
      rcases hs with rfl | rfl
      · exact Or.inr (Or.inr ⟨cursor, b, rfl⟩)
      · exact Or.inl rfl
    · cases clear with
      | false => simp at hs
      | true =>
        have heq : s = clearSegment text := by simpa using hs
        exact Or.inr (Or.inr ⟨text.getLastD 0, 0, by rw [heq]; rfl⟩)

theorem spelled_program (p : Printer) (text : List UInt8) : Spelled (p.program text).text := by
  apply Program.spelled_ofList
  intro s hs
  rcases code_of_mem_segments hs with h | h | ⟨a, b, h⟩
  · rw [h]
    decide
  · rw [h]
    decide
  · rw [h]
    exact spelled_walk a b

/-- Printers write no loops. -/
theorem plain_program (p : Printer) (text : List UInt8) :
    ∀ i ∈ (p.program text).instructions, i.IsPlain := by
  have hprint : ∀ i ∈ ofCode ".", i.IsPlain := by decide
  have hnext : ∀ i ∈ ofCode ".>", i.IsPlain := by decide
  intro i hi
  rw [program, Program.instructions_ofList] at hi
  obtain ⟨s, hs, hi⟩ := List.mem_flatMap.mp hi
  rcases code_of_mem_segments hs with h | h | ⟨a, b, h⟩
  · exact hprint i (h ▸ hi)
  · exact hnext i (h ▸ hi)
  · exact plain_walk a b i (h ▸ hi)

theorem wellFormed_program (p : Printer) (text : List UInt8) (depth : Nat) :
    (p.program text).WellFormed depth :=
  Program.wellFormed_of_nested (p.spelled_program text)
    (nested_of_plain (p.plain_program text) depth)

end Printer

namespace Stop

theorem spelled_readSegments (stop : Stop) (echoes : Bool) :
    ∀ s ∈ stop.readSegments echoes, Spelled s.code := by
  cases stop with
  | count n =>
    have hloop : Spelled "[,>]" := by decide
    simp [readSegments, countSegments, spelled_seeds, spelled_repeated, hloop]
  | delimiter d =>
    have hdelimiter : ∀ s ∈ delimiterSegments d, Spelled s.code := by
      simp [delimiterSegments, spelled_repeated]
      decide
    cases echoes with
    | false => simpa [readSegments] using hdelimiter
    | true =>
      have hblank : Spelled ">" := by decide
      simpa [readSegments, hblank] using hdelimiter

theorem spelled_echoSegments (stop : Stop) : ∀ s ∈ stop.echoSegments, Spelled s.code := by
  cases stop with
  | count n =>
    have hprint : Spelled "[.>]" := by decide
    simp [echoSegments, spelled_repeated, hprint]
  | delimiter d =>
    simp [echoSegments]
    decide

theorem nested_readInstructions (stop : Stop) (echoes : Bool) :
    Nested 2 (stop.readInstructions echoes) := by
  cases stop with
  | count n =>
    have hseeds := nested_of_plain (plain_seeds n) 2
    have hback := nested_of_plain (plain_replicate (i := .left) (by decide) (n - 1)) 2
    have hread : Nested 0 [.input, .right] := nested_of_plain (by decide) 0
    rw [readInstructions_count]
    exact (hseeds.append hback).append (hread.loop.mono (by omega))
  | delimiter d =>
    have hrestore : Nested 0 (restoreAndFlag d) := by
      have hadd := nested_of_plain (plain_replicate (i := .increment) (by decide) d.toNat) 0
      exact hadd.append (nested_of_plain (by decide) 0)
    have hpass : Nested 1 (delimiterPass d) := by
      have hread : Nested 1 [.decrement, .left, .input] := nested_of_plain (by decide) 1
      have hsub := nested_of_plain (plain_replicate (i := .decrement) (by decide) d.toNat) 1
      exact ((hread.append hsub).append hrestore.loop).append (nested_of_plain (by decide) 1)
    have hentry : Nested 2 [.right, .increment] := nested_of_plain (by decide) 2
    have hblank : Nested 2 (if echoes then [.right] else []) := by
      cases echoes <;> exact nested_of_plain (by decide) 2
    rw [readInstructions_delimiter]
    exact hblank.append (hentry.append hpass.loop)

theorem nested_echoInstructions (stop : Stop) : Nested 2 stop.echoInstructions := by
  have hprint : Nested 0 [.output, .right] := nested_of_plain (by decide) 0
  cases stop with
  | count n =>
    have hback := nested_of_plain (plain_replicate (i := .left) (by decide) n) 2
    rw [echoInstructions_count]
    exact hback.append (hprint.loop.mono (by omega))
  | delimiter d =>
    have hleft : Nested 1 [.left] := nested_of_plain (by decide) 1
    have hback : Nested 2 ([.left] ++ loop [.left]) :=
      (hleft.mono (by omega)).append hleft.loop
    have hright : Nested 2 [.right] := nested_of_plain (by decide) 2
    rw [echoInstructions_delimiter]
    exact (((hleft.mono (by omega)).append hback).append hright).append
      (hprint.loop.mono (by omega))

end Stop

namespace Reader

theorem spelled_prompt (r : Reader) :
    Spelled ((r.placeholder.map Prompt.program).getD ∅).text := by
  have hempty : Spelled (∅ : Program).text := by decide
  cases r.placeholder with
  | none => exact hempty
  | some text => exact Printer.spelled_program _ _

theorem nested_prompt (r : Reader) (depth : Nat) :
    Nested depth ((r.placeholder.map Prompt.program).getD ∅).instructions := by
  cases r.placeholder with
  | none => exact nested_of_plain (by decide) depth
  | some text => exact nested_of_plain (Printer.plain_program _ _) depth

theorem spelled_program (r : Reader) : Spelled r.program.text := by
  have hread := Program.spelled_ofList (r.stop.spelled_readSegments r.echoes)
  have hstart := Program.spelled_append r.spelled_prompt hread
  have hshow := Program.spelled_ofList r.stop.spelled_echoSegments
  unfold program
  cases r.echo with
  | none => exact hstart
  | some leadIn =>
    have hlead : Spelled (printOneCell leadIn true).text := Printer.spelled_program _ _
    exact Program.spelled_append (Program.spelled_append hstart hlead) hshow

theorem nested_program (r : Reader) : Nested 2 r.program.instructions := by
  have hstart := (r.nested_prompt 2).append (r.stop.nested_readInstructions r.echoes)
  rw [instructions_program]
  cases r.echo with
  | none => exact hstart.append (nested_of_plain (by simp) 2)
  | some leadIn =>
    have hlead : Nested 2 (printOneCell leadIn true).instructions :=
      nested_of_plain (Printer.plain_program _ _) 2
    exact hstart.append (hlead.append r.stop.nested_echoInstructions)

theorem wellFormed_program (r : Reader) : r.program.WellFormed 2 :=
  Program.wellFormed_of_nested r.spelled_program r.nested_program

end Reader

theorem Request.spelled_program (request : Request) (options : Options) :
    Spelled (request.program options).text := by
  cases request with
  | print layout text =>
    cases layout with
    | allCells => exact Printer.spelled_program _ _
    | oneCell => exact Printer.spelled_program _ _
  | read stop echo leadIn => exact Reader.spelled_program _

/-- Whatever texts, counts and delimiters a program is made from, none gets into its code. -/
theorem programs_wellFormed :
    (∀ (request : Request) (options : Options), (request.program options).WellFormed 2) ∧
    (∀ reader : Reader, reader.program.WellFormed 2) ∧
    (∀ (printer : Printer) (text : List UInt8), (printer.program text).WellFormed 2) := by
  refine ⟨?_, Reader.wellFormed_program, fun printer text => printer.wellFormed_program text 2⟩
  intro request options
  cases request with
  | print layout text =>
    cases layout with
    | allCells => exact Printer.wellFormed_program _ _ 2
    | oneCell => exact Printer.wellFormed_program _ _ 2
  | read stop echo leadIn => exact Reader.wellFormed_program _

end TapeScribe
