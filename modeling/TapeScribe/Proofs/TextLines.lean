import Mathlib.Data.List.Basic
import Mathlib.Data.List.TakeWhile
import TapeScribe.Text

namespace TapeScribe

/-- A text as its lines. A carriage return before the end of a line is no part of it, and only a
last line that is not empty may go without an end. -/
inductive Splits : List Char → List (List Char) → Prop
  | nil : Splits [] []
  | last {line} : line ≠ [] → '\n' ∉ line → Splits line [line]
  | feed {line rest more} : '\n' ∉ line → line.getLast? ≠ some '\r' → Splits rest more →
      Splits (line ++ '\n' :: rest) (line :: more)
  | returnFeed {line rest more} : '\n' ∉ line → Splits rest more →
      Splits (line ++ '\r' :: '\n' :: rest) (line :: more)

variable {c : Char} {s t line : List Char} {more : List (List Char)}

theorem lines_cons (hc : c ≠ '\n') (hreturn : c = '\r' → s.head? ≠ some '\n')
    (h : lines s = line :: more) : lines (c :: s) = (c :: line) :: more := by
  rw [lines.eq_def]
  split
  next heq => cases heq
  next heq =>
    cases heq
    exact absurd rfl hc
  next heq =>
    cases heq
    exact absurd rfl (hreturn rfl)
  next heq =>
    cases heq
    rw [h]

theorem lines_unended (hne : line ≠ []) (h : '\n' ∉ line) : lines line = [line] := by
  induction line with
  | nil => exact absurd rfl hne
  | cons c line ih =>
    rw [List.mem_cons, not_or] at h
    by_cases hline : line = []
    · subst hline
      rw [lines.eq_def]
      split <;> simp_all [lines]
    · apply lines_cons (Ne.symm h.1)
      · rintro - hhead
        exact h.2 (List.mem_of_head? hhead)
      · exact ih hline h.2

theorem lines_returnFeed (h : '\n' ∉ line) (rest : List Char) :
    lines (line ++ '\r' :: '\n' :: rest) = line :: lines rest := by
  induction line with
  | nil => rfl
  | cons c line ih =>
    rw [List.mem_cons, not_or] at h
    refine lines_cons (Ne.symm h.1) ?_ (ih h.2)
    rintro - hhead
    cases line with
    | nil => simp at hhead
    | cons d line => simp_all

theorem lines_feed (h : '\n' ∉ line) (hlast : line.getLast? ≠ some '\r') (rest : List Char) :
    lines (line ++ '\n' :: rest) = line :: lines rest := by
  induction line with
  | nil => rfl
  | cons c line ih =>
    rw [List.mem_cons, not_or] at h
    cases line with
    | nil =>
      refine lines_cons (Ne.symm h.1) ?_ rfl
      rintro rfl
      exact absurd rfl hlast
    | cons d line =>
      rw [List.getLast?_cons_cons] at hlast
      refine lines_cons (Ne.symm h.1) ?_ (ih h.2 hlast)
      rintro - hhead
      simp_all

theorem Splits.cons (h : Splits s (line :: more)) (hc : c ≠ '\n')
    (hreturn : c = '\r' → s.head? ≠ some '\n') : Splits (c :: s) ((c :: line) :: more) := by
  have hmem {line : List Char} (hline : '\n' ∉ line) : '\n' ∉ c :: line := by
    simp [hc.symm, hline]
  cases h with
  | last _ hline => exact .last (by simp) (hmem hline)
  | feed hline hlast hrest =>
    refine .feed (hmem hline) ?_ hrest
    cases line with
    | nil =>
      intro hc
      exact hreturn (by simpa using hc) rfl
    | cons d line => rwa [List.getLast?_cons_cons]
  | returnFeed hline hrest => exact .returnFeed (hmem hline) hrest

theorem splits_lines (s : List Char) : Splits s (lines s) := by
  fun_induction lines s with
  | case1 => exact .nil
  | case2 rest ih => exact @Splits.feed [] _ _ (by simp) (by simp) ih
  | case3 rest ih => exact @Splits.returnFeed [] _ _ (by simp) ih
  | case4 c rest hc hreturn hnone ih =>
    rw [hnone] at ih
    cases ih
    exact .last (by simp) (by simpa using fun h => hc h.symm)
  | case5 c rest hc hreturn line more hsome ih =>
    rw [hsome] at ih
    refine ih.cons hc ?_
    rintro rfl hhead
    obtain ⟨rest, rfl⟩ := List.head?_eq_some_iff.mp hhead
    exact hreturn rest rfl rfl

theorem Splits.lines_eq {texts : List (List Char)} (h : Splits s texts) : lines s = texts := by
  induction h with
  | nil => rfl
  | last hne hline => exact lines_unended hne hline
  | feed hline hlast _ ih => rw [lines_feed hline hlast, ih]
  | returnFeed hline _ ih => rw [lines_returnFeed hline, ih]

theorem Splits.notMem {texts : List (List Char)} (h : Splits s texts) :
    ∀ line ∈ texts, '\n' ∉ line := by
  induction h with
  | nil => simp
  | last _ hline => simpa using hline
  | feed hline _ _ ih => simpa [hline] using ih
  | returnFeed hline _ ih => simpa [hline] using ih

/-- Neither the first nor the last character is a blank. -/
def Trimmed (t : List Char) : Prop :=
  (∀ c, t.head? = some c → isBlank c = false) ∧ ∀ c, t.getLast? = some c → isBlank c = false

theorem dropWhile_blanks {l : List Char} (hl : ∀ c ∈ l, isBlank c = true)
    (hs : ∀ c, s.head? = some c → isBlank c = false) : (l ++ s).dropWhile isBlank = s := by
  rw [List.dropWhile_append_of_pos hl]
  cases s with
  | nil => rfl
  | cons c s => exact List.dropWhile_cons_of_neg (by simp [hs c rfl])

/-- Trimming takes blanks away at both ends and nothing else. -/
theorem trim_append {l r : List Char} (hl : ∀ c ∈ l, isBlank c = true)
    (hr : ∀ c ∈ r, isBlank c = true) (ht : Trimmed t) : trim (l ++ t ++ r) = t := by
  have hback : (r.reverse ++ t.reverse).dropWhile isBlank = t.reverse := by
    apply dropWhile_blanks
    · simpa using hr
    · simpa using ht.2
  by_cases hne : t = []
  · subst hne
    have hall : (l ++ [] ++ r).dropWhile isBlank = [] := by
      rw [List.dropWhile_eq_nil_iff]
      intro c hc
      simp only [List.append_nil, List.mem_append] at hc
      exact hc.elim (hl c) (hr c)
    rw [trim, hall]
    rfl
  · have hfront : (l ++ t ++ r).dropWhile isBlank = t ++ r := by
      rw [List.append_assoc]
      apply dropWhile_blanks hl
      intro c hc
      rw [List.head?_append_of_ne_nil _ hne] at hc
      exact ht.1 c hc
    rw [trim, hfront, List.reverse_append, hback, List.reverse_reverse]

theorem head?_dropWhile_blank {c : Char} (h : (s.dropWhile isBlank).head? = some c) :
    isBlank c = false := by
  have hhead := List.head?_dropWhile_not isBlank s
  rwa [h] at hhead

theorem exists_dropWhile (s : List Char) :
    ∃ l, s = l ++ s.dropWhile isBlank ∧ ∀ c ∈ l, isBlank c = true :=
  ⟨s.takeWhile isBlank, List.takeWhile_append_dropWhile.symm, fun _ hc => List.mem_takeWhile_imp hc⟩

theorem exists_trim (s : List Char) :
    ∃ l r, s = l ++ trim s ++ r ∧ (∀ c ∈ l, isBlank c = true) ∧ (∀ c ∈ r, isBlank c = true) ∧
      Trimmed (trim s) := by
  obtain ⟨l, hl, hblank⟩ := exists_dropWhile s
  obtain ⟨r, hr, hblank'⟩ := exists_dropWhile (s.dropWhile isBlank).reverse
  have hmid : s.dropWhile isBlank = trim s ++ r.reverse := by
    rw [trim, ← List.reverse_append, ← hr, List.reverse_reverse]
  refine ⟨l, r.reverse, ?_, hblank, by simpa using hblank', ?_, ?_⟩
  · rw [List.append_assoc, ← hmid, ← hl]
  · intro c hc
    apply head?_dropWhile_blank (s := s)
    rw [hmid, List.head?_append, hc, Option.some_or]
  · intro c hc
    rw [trim, List.getLast?_reverse] at hc
    exact head?_dropWhile_blank hc

theorem trim_subset (s : List Char) : trim s ⊆ s := by
  obtain ⟨l, r, h, -⟩ := exists_trim s
  intro c hc
  rw [h]
  simp [hc]

theorem Trimmed.trim_eq (h : Trimmed t) : trim t = t := by
  have hnone := trim_append (l := []) (r := []) (by simp) (by simp) h
  simpa using hnone

theorem trim_concat_blank {c : Char} (hc : isBlank c = true) (s : List Char) :
    trim (s ++ [c]) = trim s := by
  obtain ⟨l, r, hs, hl, hr, ht⟩ := exists_trim s
  have hblank : ∀ d ∈ r ++ [c], isBlank d = true := by
    intro d hd
    rcases List.mem_append.mp hd with hd | hd
    · exact hr d hd
    · rwa [List.mem_singleton.mp hd]
  have hparts : s ++ [c] = l ++ trim s ++ (r ++ [c]) := by
    rw [← List.append_assoc, ← hs]
  rw [hparts, trim_append hl hblank ht]

theorem trim_eq_of_length_le {s : List Char} (h : s.length ≤ (trim s).length) : trim s = s := by
  obtain ⟨l, r, hs, -⟩ := exists_trim s
  have hlength := congrArg List.length hs
  simp only [List.length_append] at hlength
  obtain rfl : l = [] := List.eq_nil_of_length_eq_zero (by omega)
  obtain rfl : r = [] := List.eq_nil_of_length_eq_zero (by omega)
  simpa using hs.symm

theorem Trimmed.append {front : List Char} (h : Trimmed front) (hne : front ≠ []) (ht : Trimmed t)
    (hne' : t ≠ []) (between : List Char) : Trimmed (front ++ (between ++ t)) := by
  constructor
  · intro c hc
    rw [List.head?_append_of_ne_nil _ hne] at hc
    exact h.1 c hc
  · intro c hc
    rw [← List.append_assoc, List.getLast?_append_of_ne_nil _ hne'] at hc
    exact ht.2 c hc

/-- Trimming leaves solid text in front alone, and takes from what follows blanks at its end. -/
theorem exists_trim_append {front : List Char} (hne : front ≠ []) (h : Trimmed front)
    (s : List Char) : ∃ rest, trim (front ++ s) = front ++ rest ∧ trim rest = trim s := by
  obtain ⟨l, r, hs, hl, hr, ht⟩ := exists_trim s
  by_cases hnil : trim s = []
  · refine ⟨[], ?_, by rw [hnil]; rfl⟩
    have hblank : ∀ c ∈ s, isBlank c = true := by
      intro c hc
      rw [hs, hnil, List.append_nil, List.mem_append] at hc
      exact hc.elim (hl c) (hr c)
    have hfront := trim_append (l := []) (by simp) hblank h
    rwa [List.append_nil]
  · refine ⟨l ++ trim s, ?_, ?_⟩
    · have hsolid := h.append hne ht hnil l
      have hall := trim_append (l := []) (by simp) hr hsolid
      have hparts : front ++ s = [] ++ (front ++ (l ++ trim s)) ++ r := by
        rw [List.nil_append, List.append_assoc front, ← hs]
      rw [hparts, hall]
    · have hrest := trim_append (r := []) hl (by simp) ht
      simpa using hrest

/-- A line that is ended is shown as it stands, but for a carriage return at its end. -/
theorem exists_lines_ended {line : List Char} (h : '\n' ∉ line) (rest : List Char) :
    ∃ shown, lines (line ++ '\n' :: rest) = shown :: lines rest ∧ trim shown = trim line := by
  by_cases hlast : line.getLast? = some '\r'
  · obtain ⟨front, rfl⟩ := List.getLast?_eq_some_iff.mp hlast
    have hfront : '\n' ∉ front := fun hmem => h (List.mem_append_left _ hmem)
    refine ⟨front, ?_, (trim_concat_blank (by decide) front).symm⟩
    rw [List.append_assoc]
    exact lines_returnFeed hfront rest
  · exact ⟨line, lines_feed h hlast rest, rfl⟩

end TapeScribe
