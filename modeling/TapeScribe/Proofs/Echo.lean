import Mathlib.Data.List.DropRight
import TapeScribe.Proofs.CountReading
import TapeScribe.Proofs.DelimiterReading
import TapeScribe.Proofs.Printing

namespace TapeScribe

open Instruction

variable {modulus : Nat} {allowed : Instruction → State → Prop} {s : State}

theorem balanced_print : Machine.Balanced [.output, .right] :=
  Machine.balanced_of_plain (by decide)

theorem balanced_back : Machine.Balanced [.left] :=
  Machine.balanced_of_plain (by decide)

theorem passes_printLoop (v : List Nat) (hv : 0 ∉ v) {l r : List Nat}
    (ha : AllowsWithin allowed (s.pointer + l.length) (s.pointer + (l.length + v.length))) :
    Passes modulus allowed [.output, .right] (s.laid l (v ++ r))
      ({ s with output := s.output ++ v }.laid (l ++ v) r) := by
  induction v generalizing s l with
  | nil =>
    rw [List.append_nil, List.append_nil]
    exact .refl _
  | cons x v ih =>
    have hx : x ≠ 0 := fun h => hv (by simp [h])
    have hprint : Runs modulus allowed [.output] (s.laid l (x :: (v ++ r)))
        ({ s with output := s.output ++ [x] }.laid l (x :: (v ++ r))) :=
      runs_output (ha.laid (by simp) (by simp))
    have hright : Runs modulus allowed [.right]
        ({ s with output := s.output ++ [x] }.laid l (x :: (v ++ r)))
        ({ s with output := s.output ++ [x] }.laid (l ++ [x]) (v ++ r)) :=
      runs_right (ha _ _ (by simp) (by simp))
    have hrest := ih (s := { s with output := s.output ++ [x] }) (l := l ++ [x])
      (fun h => hv (by simp [h])) (ha.mono (by simp) (by simp; omega))
    rw [List.append_assoc, List.append_assoc] at hrest
    exact .step (ha.laid (by simp) (by simp)) (ha _ _ (by simp) (by simp)) (by simpa using hx)
      (hprint.cons hright) hrest

theorem runs_printLoop (v : List Nat) (hv : 0 ∉ v) {l r : List Nat}
    (ha : AllowsWithin allowed (s.pointer + l.length) (s.pointer + (l.length + v.length))) :
    Runs modulus allowed (loop [.output, .right]) (s.laid l (v ++ 0 :: r))
      ({ s with output := s.output ++ v }.laid (l ++ v) (0 :: r)) := by
  have hend : Runs modulus allowed (loop [.output, .right])
      ({ s with output := s.output ++ v }.laid (l ++ v) (0 :: r)) _ :=
    .loop_skip balanced_print (ha _ _ (by simp) (by simp)) (State.laid_cell ..)
  exact (passes_printLoop v hv ha).runs balanced_print hend

/-- From the last of some values that are not 0, back to the 0 in front of them. -/
theorem passes_backLoop (v : List Nat) (hv : 0 ∉ v) {y : Nat} (hy : y ≠ 0) {u r : List Nat}
    (ha : AllowsWithin allowed (s.pointer + u.length) (s.pointer + (u ++ 0 :: v).length)) :
    Passes modulus allowed [.left] (s.laid (u ++ 0 :: v) (y :: r))
      (s.laid u (0 :: (v ++ y :: r))) := by
  induction v using List.reverseRecOn generalizing y r with
  | nil =>
    have hleft : Runs modulus allowed [.left] (s.laid (u ++ [0]) (y :: r))
        (s.laid u (0 :: y :: r)) := runs_left (ha.laid (by simp) (by simp))
    exact .step (ha.laid (by simp) (by simp)) (ha.laid (by simp) (by simp)) (by simpa using hy)
      hleft (.refl _)
  | append_singleton v x ih =>
    have hx : x ≠ 0 := fun h => hv (by simp [h])
    have hleft : Runs modulus allowed [.left] (s.laid ((u ++ 0 :: v) ++ [x]) (y :: r))
        (s.laid (u ++ 0 :: v) (x :: y :: r)) := runs_left (ha.laid (by simp) (by simp))
    have hrest := ih (r := y :: r) (fun h => hv (by simp [h])) hx
      (ha.mono (Nat.le_refl _) (by simp))
    have hl : u ++ 0 :: (v ++ [x]) = (u ++ 0 :: v) ++ [x] := by simp
    rw [hl, List.append_assoc v]
    exact .step (ha.laid (by simp) (by simp)) (ha.laid (by simp) (by simp)) (by simpa using hy)
      hleft hrest

theorem runs_backToZero (v : List Nat) (hv : 0 ∉ v) {u r : List Nat}
    (ha : AllowsWithin allowed (s.pointer + u.length) (s.pointer + (u ++ 0 :: v).length)) :
    Runs modulus allowed ([.left] ++ loop [.left]) (s.laid (u ++ 0 :: v) r)
      (s.laid u (0 :: (v ++ r))) := by
  have hend : Runs modulus allowed (loop [.left]) (s.laid u (0 :: (v ++ r))) _ :=
    .loop_skip balanced_back (ha.laid (by simp) (by simp)) (State.laid_cell ..)
  rcases v.eq_nil_or_concat' with rfl | ⟨v, y, rfl⟩
  · have hleft : Runs modulus allowed [.left] (s.laid (u ++ [0]) r) (s.laid u (0 :: r)) :=
      runs_left (ha.laid (by simp) (by simp))
    exact hleft.append hend
  · have hy : y ≠ 0 := fun h => hv (by simp [h])
    have hleft : Runs modulus allowed [.left] (s.laid ((u ++ 0 :: v) ++ [y]) r)
        (s.laid (u ++ 0 :: v) (y :: r)) := runs_left (ha.laid (by simp) (by simp))
    have hback : Passes modulus allowed [.left] (s.laid (u ++ 0 :: v) (y :: r)) _ :=
      passes_backLoop v (fun h => hv (by simp [h])) hy (ha.mono (Nat.le_refl _) (by simp))
    have hl : u ++ 0 :: (v ++ [y]) = (u ++ 0 :: v) ++ [y] := by simp
    rw [List.append_assoc v] at hend
    rw [hl, List.append_assoc v]
    exact hleft.append (hback.runs balanced_back hend)

theorem exists_before_last_zero (w : List UInt8) :
    ∃ u, 0 :: w = u ++ 0 :: w.rtakeWhile (· ≠ 0) := by
  induction w using List.reverseRecOn with
  | nil => exact ⟨[], by simp⟩
  | append_singleton w x ih =>
    by_cases hx : x = 0
    · exact ⟨0 :: w, by simp [hx]⟩
    · obtain ⟨u, hu⟩ := ih
      refine ⟨u, ?_⟩
      rw [List.rtakeWhile_concat_pos _ _ _ (by simpa using hx), ← List.cons_append, hu]
      simp

theorem exists_dropWhile_zero (b : List UInt8) : ∃ r, b.dropWhile (· ≠ 0) ++ [0] = 0 :: r := by
  induction b with
  | nil => exact ⟨[], rfl⟩
  | cons x b ih =>
    by_cases hx : x = 0
    · exact ⟨b ++ [0], by simp [hx]⟩
    · simpa [List.dropWhile_cons, hx] using ih

theorem append_zero_eq_takeWhile (b : List UInt8) :
    b ++ [0] = b.takeWhile (· ≠ 0) ++ (b.dropWhile (· ≠ 0) ++ [0]) := by
  rw [← List.append_assoc, List.takeWhile_append_dropWhile]

theorem length_takeWhile_zero (b : List UInt8) : (b.takeWhile (· ≠ 0)).length = b.idxOf 0 := by
  induction b with
  | nil => rfl
  | cons x b ih =>
    by_cases hx : x = 0
    · simp [hx]
    · simpa [hx, List.idxOf_cons_ne] using ih

theorem toNat_injective : Function.Injective UInt8.toNat :=
  fun _ _ => UInt8.toNat_inj.mp

theorem zero_mem_map_toNat {v : List UInt8} : 0 ∈ v.map UInt8.toNat ↔ 0 ∈ v :=
  List.mem_map_of_injective toNat_injective (a := 0)

theorem takeWhile_eq_self_iff_zero_notMem (b : List UInt8) :
    b.takeWhile (· ≠ 0) = b ↔ 0 ∉ b := by
  rw [List.takeWhile_eq_self_iff]
  simp [List.forall_mem_ne']

theorem rtakeWhile_eq_self_iff_zero_notMem (w : List UInt8) :
    w.rtakeWhile (· ≠ 0) = w ↔ 0 ∉ w := by
  rw [List.rtakeWhile_eq_self_iff]
  simp [List.forall_mem_ne']

theorem map_toNat_append_inj {front a b : List UInt8} :
    (front ++ a).map UInt8.toNat = (front ++ b).map UInt8.toNat ↔ a = b := by
  rw [List.map_inj_right toNat_injective, List.append_cancel_left_eq]

theorem prints_all_iff_takeWhile (leadIn b : List UInt8) :
    (leadIn ++ b.takeWhile (· ≠ 0)).map UInt8.toNat = (leadIn ++ b).map UInt8.toNat ↔ 0 ∉ b :=
  map_toNat_append_inj.trans (takeWhile_eq_self_iff_zero_notMem b)

theorem prints_all_iff_rtakeWhile (leadIn w : List UInt8) :
    (leadIn ++ w.rtakeWhile (· ≠ 0)).map UInt8.toNat = (leadIn ++ w).map UInt8.toNat ↔
      0 ∉ w :=
  map_toNat_append_inj.trans (rtakeWhile_eq_self_iff_zero_notMem w)

/-- Back from the end of the text to its last 0, or the 0 in front of it, and from there to its
end. -/
theorem runs_echoDelimiter (d : UInt8) (w : List UInt8)
    (ha : AllowsWithin allowed s.pointer (s.pointer + (w.length + 2))) :
    Runs modulus allowed (Stop.delimiter d).echoInstructions
      (s.laid (0 :: w.map UInt8.toNat ++ [0]) [0])
      ({ s with output := s.output ++ (w.rtakeWhile (· ≠ 0)).map UInt8.toNat }.laid
        (0 :: w.map UInt8.toNat) [0, 0]) := by
  obtain ⟨u, hu⟩ := exists_before_last_zero w
  have hlen := congrArg List.length hu
  have hmap := congrArg (List.map UInt8.toNat) hu
  have hv : 0 ∉ (w.rtakeWhile (· ≠ 0)).map UInt8.toNat := by
    rw [zero_mem_map_toNat]
    intro h0
    simpa using List.mem_rtakeWhile_imp h0
  generalize w.rtakeWhile (· ≠ 0) = v at *
  rw [List.map_append, List.map_cons, List.map_cons, UInt8.toNat_zero] at hmap
  rw [List.length_append, List.length_cons, List.length_cons] at hlen
  have hskip : Runs modulus allowed [.left]
      (s.laid (u.map UInt8.toNat ++ 0 :: v.map UInt8.toNat ++ [0]) [0])
      (s.laid (u.map UInt8.toNat ++ 0 :: v.map UInt8.toNat) [0, 0]) :=
    runs_left (ha _ _ (by simp) (by simp; omega))
  have hback : Runs modulus allowed ([.left] ++ loop [.left])
      (s.laid (u.map UInt8.toNat ++ 0 :: v.map UInt8.toNat) [0, 0])
      (s.laid (u.map UInt8.toNat) (0 :: (v.map UInt8.toNat ++ [0, 0]))) :=
    runs_backToZero _ hv (ha.mono (by simp) (by simp; omega))
  have hright : Runs modulus allowed [.right]
      (s.laid (u.map UInt8.toNat) (0 :: (v.map UInt8.toNat ++ [0, 0])))
      (s.laid (u.map UInt8.toNat ++ [0]) (v.map UInt8.toNat ++ [0, 0])) :=
    runs_right (ha _ _ (by simp) (by simp; omega))
  have hprint : Runs modulus allowed (loop [.output, .right])
      (s.laid (u.map UInt8.toNat ++ [0]) (v.map UInt8.toNat ++ [0, 0])) _ :=
    runs_printLoop _ hv (ha.mono (by simp) (by simp; omega))
  have hall := ((hskip.append hback).append hright).append hprint
  have hsplit : u.map UInt8.toNat ++ [0] ++ v.map UInt8.toNat = 0 :: w.map UInt8.toNat := by
    rw [hmap, List.append_assoc, List.singleton_append]
  rw [hsplit, ← hmap] at hall
  rw [Stop.echoInstructions_delimiter]
  exact hall

theorem runs_echoCount (b : List UInt8)
    (ha : AllowsWithin allowed s.pointer (s.pointer + b.length)) :
    Runs modulus allowed (Stop.count b.length).echoInstructions (s.laid (b.map UInt8.toNat) [0])
      ({ s with output := s.output ++ (b.takeWhile (· ≠ 0)).map UInt8.toNat }.laid
        ((b.takeWhile (· ≠ 0)).map UInt8.toNat)
        ((b.dropWhile (· ≠ 0) ++ [0]).map UInt8.toNat)) := by
  have hv : 0 ∉ (b.takeWhile (· ≠ 0)).map UInt8.toNat := by
    rw [zero_mem_map_toNat]
    intro h0
    simpa using List.mem_takeWhile_imp h0
  have hlen : (b.takeWhile (· ≠ 0)).length ≤ b.length := (List.takeWhile_sublist _).length_le
  have hmap := congrArg (List.map UInt8.toNat) (append_zero_eq_takeWhile b)
  obtain ⟨r, hr⟩ := exists_dropWhile_zero b
  rw [hr, List.map_append, List.map_append] at hmap
  rw [hr, Stop.echoInstructions_count]
  have hback : Runs modulus allowed (List.replicate (b.map UInt8.toNat).length .left)
      (s.laid ([] ++ b.map UInt8.toNat) [0]) (s.laid [] (b.map UInt8.toNat ++ [0])) :=
    runs_lefts _ _ (ha.mono (by simp) (by simp))
  have hprint : Runs modulus allowed (loop [.output, .right])
      (s.laid [] ((b.takeWhile (· ≠ 0)).map UInt8.toNat ++ 0 :: r.map UInt8.toNat)) _ :=
    runs_printLoop _ hv (ha.mono (by simp) (by simpa using hlen))
  rw [List.length_map] at hback
  exact hback.append (hmap ▸ hprint)

/-- The lead-in is printed on the cell where the reading ended, and leaves it as it was. -/
theorem runs_leadInAndEcho (hM : 256 ≤ modulus) {code : List Instruction} {stop : Stop}
    {t u : State} (hread : Runs modulus allowed code s t) (h0 : t.cell = 0)
    (ha : AllowsCounting allowed t.pointer) {leadIn : List UInt8}
    (hecho : Runs modulus allowed stop.echoInstructions
      { t with output := t.output ++ leadIn.map UInt8.toNat } u) :
    Runs modulus allowed
      (code ++ ((printOneCell leadIn true).instructions ++ stop.echoInstructions)) s u := by
  have hlead := runs_printOneCell_clear hM ha h0 leadIn
  exact hread.append (hlead.append hecho)

/-- Behind the blank start cell the text is stored, and printed on the way back over it. -/
theorem runs_delimiterEcho (hM : 256 ≤ modulus) (hs : s.Blank) {d : UInt8} {w : List UInt8}
    (hw : d ∉ w) {rest : List UInt8} (hi : s.input = w ++ d :: rest) (leadIn : List UInt8)
    (ha : AllowsWithin allowed s.pointer (s.pointer + (w.length + 2))) :
    Runs modulus allowed ((Stop.delimiter d).reader true leadIn).program.instructions s
      ({ s with
          input := rest
          output := s.output ++ (leadIn ++ w.rtakeWhile (· ≠ 0)).map UInt8.toNat }.laid
        (0 :: w.map UInt8.toNat) [0, 0]) := by
  have hread : Runs modulus allowed ((Stop.delimiter d).readInstructions true) s
      ({ s with input := rest }.laid (0 :: w.map UInt8.toNat ++ [0]) [0]) :=
    runs_delimiterReadInstructions hM hs true hw hi (ha.mono (Nat.le_refl _) (by simp))
  have hecho : Runs modulus allowed (Stop.delimiter d).echoInstructions
      ({ s with input := rest, output := s.output ++ leadIn.map UInt8.toNat }.laid
        (0 :: w.map UInt8.toNat ++ [0]) [0]) _ := runs_echoDelimiter d w ha
  rw [Stop.instructions_reader, if_pos rfl, List.map_append, ← List.append_assoc s.output]
  exact runs_leadInAndEcho hM hread (State.laid_cell ..) (ha.counting (by simp) (by simp)) hecho

theorem runs_countEcho (hM : 256 ≤ modulus) (hs : s.Blank) (b : List UInt8) {rest : List UInt8}
    (hi : s.input = b ++ rest) (leadIn : List UInt8)
    (ha : AllowsWithin allowed s.pointer (s.pointer + b.length)) :
    Runs modulus allowed ((Stop.count b.length).reader true leadIn).program.instructions s
      ({ s with
          input := rest
          output := s.output ++ (leadIn ++ b.takeWhile (· ≠ 0)).map UInt8.toNat }.laid
        ((b.takeWhile (· ≠ 0)).map UInt8.toNat)
        ((b.dropWhile (· ≠ 0) ++ [0]).map UInt8.toNat)) := by
  have hread : Runs modulus allowed ((Stop.count b.length).readInstructions true) s
      ({ s with input := rest }.laid (b.map UInt8.toNat) [0]) :=
    runs_countReading hM hs b hi true ha
  have hecho : Runs modulus allowed (Stop.count b.length).echoInstructions
      ({ s with input := rest, output := s.output ++ leadIn.map UInt8.toNat }.laid
        (b.map UInt8.toNat) [0]) _ := runs_echoCount b ha
  rw [Stop.instructions_reader, if_pos rfl, List.map_append, ← List.append_assoc s.output]
  exact runs_leadInAndEcho hM hread (State.laid_cell ..) (ha.counting (by simp) (by simp)) hecho

/-- The echo shows what was read after its last 0, which is all of it only if no byte is 0. -/
theorem delimiter_echo_prints (d : UInt8) (leadIn w rest : List UInt8) (hw : d ∉ w) :
    ((Stop.delimiter d).reader true leadIn).program.StopsWith (w ++ [d] ++ rest) .finished
      ⟨stored (0 :: w), w.length + 1, rest,
        (leadIn ++ w.rtakeWhile (· ≠ 0)).map UInt8.toNat⟩ ∧
    ∀ t, ((Stop.delimiter d).reader true leadIn).program.StopsWith (w ++ [d] ++ rest) .finished t →
      (t.output = (leadIn ++ w).map UInt8.toNat ↔ 0 ∉ w) := by
  have hinput : w ++ [d] ++ rest = w ++ d :: rest := by simp
  have hrun : Runs 256 (fun _ _ => True) _ (.fresh (w ++ [d] ++ rest)) _ :=
    runs_delimiterEcho (by omega) (State.blank_fresh _) hw hinput leadIn (allowsWithin_true _ _)
  have hstop : Program.StopsWith _ _ _ ⟨stored (0 :: w), w.length + 1, _, _⟩ :=
    hrun.stopsWith_stored 2 (by simp) (by simp)
  refine ⟨hstop, ?_⟩
  intro t ht
  obtain ⟨-, rfl⟩ := hstop.unique ht
  exact prints_all_iff_rtakeWhile leadIn w

theorem delimiter_echo_prints_after_zero :
    (10 : UInt8) ∉ [72, 0, 105] ∧
    ((Stop.delimiter 10).reader true [62]).program.StopsWith [72, 0, 105, 10, 9] .finished
      ⟨stored [0, 72, 0, 105], 4, [9], [62, 105]⟩ ∧
    ([62, 105] = [62, 72, 0, 105] ↔ (0 : UInt8) ∉ [72, 0, 105]) := by
  have h := delimiter_echo_prints 10 [62] [72, 0, 105] [9] (by decide)
  exact ⟨by decide, h.1, h.2 _ h.1⟩

/-- The echo stops before the first 0. With too little input nothing is printed, not even the
lead-in. -/
theorem count_echo_prints (n : Nat) (leadIn input : List UInt8) :
    (n ≤ input.length →
      ((Stop.count n).reader true leadIn).program.StopsWith input .finished
        ⟨stored (input.take n), (input.take n).idxOf 0, input.drop n,
          (leadIn ++ (input.take n).takeWhile (· ≠ 0)).map UInt8.toNat⟩ ∧
      ∀ t, ((Stop.count n).reader true leadIn).program.StopsWith input .finished t →
        (t.output = (leadIn ++ input.take n).map UInt8.toNat ↔ 0 ∉ input.take n)) ∧
    (input.length < n → ((Stop.count n).reader true leadIn).program.StopsWith input .blocked
      ⟨stored (input ++ List.replicate (n - input.length) 1), input.length, [], []⟩) := by
  constructor
  · intro hn
    have hrun : Runs 256 (fun _ _ => True) _ _ _ := runs_countEcho (by omega)
      (State.blank_fresh input) (input.take n) (List.take_append_drop n input).symm leadIn
      (allowsWithin_true _ _)
    rw [List.length_take_of_le hn] at hrun
    generalize input.take n = b at *
    have hcells : (b.takeWhile (· ≠ 0)).map UInt8.toNat ++
        (b.dropWhile (· ≠ 0) ++ [0]).map UInt8.toNat = (b ++ [0]).map UInt8.toNat := by
      rw [← List.map_append, ← append_zero_eq_takeWhile]
    have hpointer : ((b.takeWhile (· ≠ 0)).map UInt8.toNat).length = b.idxOf 0 := by
      rw [List.length_map, length_takeWhile_zero]
    have hstop := hrun.stopsWith_stored 1 hcells hpointer
    refine ⟨hstop, ?_⟩
    intro t ht
    obtain ⟨-, rfl⟩ := hstop.unique ht
    exact prints_all_iff_takeWhile leadIn b
  · intro hn
    have hcode : ((Stop.count n).reader true leadIn).program.instructions =
        (Stop.count n).readInstructions true ++ _ := Stop.instructions_reader ..
    have hread : Blocks 256 (fun _ _ => True) _ _ _ := blocks_countReading (by omega)
      (State.blank_fresh input) hn true (allowsWithin_true _ _)
    have hrun := hcode ▸ hread.append _
    exact hrun.stopsWith_stored 0 (by simp [State.fresh]) (by simp [State.fresh])

theorem count_echo_prints_before_zero :
    3 ≤ [72, 0, 105, 9].length ∧
    ((Stop.count 3).reader true [62]).program.StopsWith [72, 0, 105, 9] .finished
      ⟨stored [72, 0, 105], 1, [9], [62, 72]⟩ ∧
    ([62, 72] = [62, 72, 0, 105] ↔ (0 : UInt8) ∉ [72, 0, 105]) ∧
    [72].length < 3 ∧
    ((Stop.count 3).reader true [62]).program.StopsWith [72] .blocked
      ⟨stored [72, 1, 1], 1, [], []⟩ := by
  have hfull := (count_echo_prints 3 [62] [72, 0, 105, 9]).1 (by decide)
  have hshort := (count_echo_prints 3 [62] [72]).2 (by decide)
  exact ⟨by decide, hfull.1, hfull.2 _ hfull.1, by decide, hshort⟩

end TapeScribe
