import Mathlib.Data.List.Forall2
import TapeScribe.Mode
import TapeScribe.Proofs.Numeral

namespace TapeScribe

/-- The same character, or a letter of ASCII in its two forms. -/
inductive SameUpToCase : Char → Char → Prop
  | same (c) : SameUpToCase c c
  | small {c d} : c.isUpper → d.toNat = c.toNat + 32 → SameUpToCase c d
  | capital {c d} : d.isUpper → c.toNat = d.toNat + 32 → SameUpToCase c d

namespace Mode

/-- What selects a mode: its name, or a numeral of its position among all modes. -/
inductive SelectedBy (m : Mode) (key : List Char) : Prop
  | name : List.Forall₂ SameUpToCase key m.name.toList → m.SelectedBy key
  | position {n} : Numeral key n → all[n]? = some m → m.SelectedBy key

end Mode

variable {c d : Char} {s t : List Char} {n : Nat}

theorem isUpper_iff_toNat : c.isUpper = true ↔ 65 ≤ c.toNat ∧ c.toNat ≤ 90 :=
  decide_eq_true_iff

theorem toNat_toLower (c : Char) :
    c.toLower.toNat = if c.isUpper then c.toNat + 32 else c.toNat := by
  split
  next h =>
    have hrange := isUpper_iff_toNat.mp h
    have hval : c.toLower.val = c.val + 32 := congrArg Char.val (dif_pos (of_decide_eq_true h))
    rw [← Char.toNat_val] at hrange ⊢
    rw [hval, UInt32.toNat_add, ← Char.toNat_val]
    exact Nat.mod_eq_of_lt (show c.val.toNat + 32 < 2 ^ 32 by omega)
  next h =>
    have hsame : c.toLower = c := dif_neg fun hrange => h (decide_eq_true hrange)
    rw [hsame]

theorem toLower_eq_iff (hd : ¬d.isUpper) : c.toLower = d ↔ SameUpToCase c d := by
  rw [← Char.toNat_inj, toNat_toLower]
  constructor
  · intro h
    split at h
    next hc => exact .small hc h.symm
    next =>
      rw [Char.toNat_inj.mp h]
      exact .same d
  · intro h
    cases h with
    | same => rw [if_neg hd]
    | small hc hcode => rw [if_pos hc, hcode]
    | capital hupper => exact absurd hupper hd

theorem lower_eq_iff (ht : ∀ d ∈ t, ¬d.isUpper) :
    lower s = t ↔ List.Forall₂ SameUpToCase s t := by
  unfold lower
  induction s generalizing t with
  | nil => simp [eq_comm]
  | cons c s ih =>
    cases t with
    | nil => simp
    | cons d t =>
      rw [List.forall_mem_cons] at ht
      rw [List.map_cons, List.cons.injEq, List.forall₂_cons, toLower_eq_iff ht.1, ih ht.2]

theorem lower_eq_self (h : ∀ c ∈ s, ¬c.isUpper) : lower s = s :=
  (lower_eq_iff h).mpr (List.forall₂_same.mpr fun c _ => .same c)

/-- A capital letter becomes no digit and no sign, so nothing else becomes a numeral. -/
theorem numeral_lower_iff : Numeral (lower s) n ↔ Numeral s n := by
  constructor
  · intro h
    have hlower : lower s = s := by
      apply lower_eq_self
      intro c hc hupper
      have hcode := h.code_of_mem (List.mem_map_of_mem hc)
      rw [toNat_toLower, if_pos hupper] at hcode
      rw [isUpper_iff_toNat] at hupper
      omega
    rwa [hlower] at h
  · intro h
    have hlower : lower s = s := by
      apply lower_eq_self
      intro c hc hupper
      have hcode := h.code_of_mem hc
      rw [isUpper_iff_toNat] at hupper
      omega
    rwa [hlower]

namespace Mode

variable {m : Mode} {key : List Char}

/-- Names are made of small letters and hyphens. -/
theorem name_code (m : Mode) :
    ∀ c ∈ m.name.toList, c.toNat = 45 ∨ 97 ≤ c.toNat ∧ c.toNat ≤ 122 := by
  have hall : m.name.toList.all
      (fun c => c.toNat = 45 ∨ 97 ≤ c.toNat ∧ c.toNat ≤ 122) = true := by
    rcases m with (_ | _) | ⟨_ | _, _ | _⟩ <;> rfl
  simpa using hall

theorem name_small (m : Mode) : ∀ c ∈ m.name.toList, ¬c.isUpper := by
  intro c hc hupper
  have hcode := m.name_code c hc
  rw [isUpper_iff_toNat] at hupper
  omega

theorem name_not_numeral (m : Mode) : ¬Numeral m.name.toList n := by
  intro h
  obtain ⟨c, hc⟩ := List.exists_mem_of_ne_nil _ h.ne_nil
  have hname := m.name_code c hc
  have hnumeral := h.code_of_mem hc
  omega

theorem find?_name_eq_some_iff {name : List Char} :
    all.find? (fun m => m.name.toList = name) = some m ↔ m.name.toList = name := by
  constructor
  · intro h
    simpa using List.find?_some h
  · rintro rfl
    have hall : ∀ m ∈ all, all.find? (fun m' => m'.name.toList = m.name.toList) = some m := by decide
    exact hall m m.mem_all

/-- A position is small, so its numeral has room in a machine word. -/
theorem bind_parse?_eq_some_iff :
    (Decimal.parse? key).bind (fun i => all[i.toNat]?) = some m ↔
      ∃ n, Numeral key n ∧ all[n]? = some m := by
  rw [Option.bind_eq_some_iff]
  constructor
  · rintro ⟨i, hi, hm⟩
    exact ⟨i.toNat, Decimal.parse?_eq_some_iff.mp hi, hm⟩
  · rintro ⟨n, hn, hm⟩
    have hlength : all.length = 6 := rfl
    obtain ⟨hbound, -⟩ := List.getElem?_eq_some_iff.mp hm
    have hroom : n < UInt64.size := by
      rw [hlength] at hbound
      exact Nat.lt_trans hbound (by decide)
    have hvalue : (UInt64.ofNatLT n hroom).toNat = n := UInt64.toNat_ofNatLT
    refine ⟨UInt64.ofNatLT n hroom, ?_, by rwa [hvalue]⟩
    rwa [Decimal.parse?_eq_some_iff, hvalue]

theorem lookup_eq_some_iff {selector : String} :
    lookup selector = some m ↔ m.SelectedBy (trim selector.toList) := by
  simp only [lookup]
  generalize trim selector.toList = key
  have hname (m : Mode) := lower_eq_iff (s := key) m.name_small
  cases hfind : all.find? (fun m => m.name.toList = lower key) with
  | some found =>
    have hkey := find?_name_eq_some_iff.mp hfind
    constructor
    · intro h
      cases h
      exact .name ((hname _).mp hkey.symm)
    · intro h
      cases h with
      | name hm =>
        rw [← hname] at hm
        exact hfind.symm.trans (find?_name_eq_some_iff.mpr hm.symm)
      | position hn =>
        rw [← numeral_lower_iff, ← hkey] at hn
        exact absurd hn found.name_not_numeral
  | none =>
    rw [bind_parse?_eq_some_iff]
    simp only [numeral_lower_iff]
    constructor
    · rintro ⟨n, hn, hm⟩
      exact .position hn hm
    · intro h
      cases h with
      | name hm =>
        rw [← hname] at hm
        cases hfind.symm.trans (find?_name_eq_some_iff.mpr hm.symm)
      | position hn hm => exact ⟨_, hn, hm⟩

theorem lookup_of_numeral {selector : String} (h : Numeral (trim selector.toList) n) :
    lookup selector = all[n]? := by
  apply Option.ext
  intro m
  rw [lookup_eq_some_iff]
  constructor
  · intro hm
    cases hm with
    | name hname =>
      rw [← numeral_lower_iff, (lower_eq_iff m.name_small).mpr hname] at h
      exact absurd h m.name_not_numeral
    | position hn hm => rwa [h.unique hn]
  · exact .position h

theorem SelectedBy.ascii (h : m.SelectedBy key) : ∀ c ∈ key, c.toNat < 128 := by
  intro c hc
  cases h with
  | name hname =>
    rw [← lower_eq_iff m.name_small] at hname
    have hcode := m.name_code c.toLower (hname ▸ List.mem_map_of_mem hc)
    rw [toNat_toLower] at hcode
    split at hcode <;> omega
  | position hn _ =>
    have hcode := hn.code_of_mem hc
    omega

end Mode

/-- A selector stands for a mode exactly if it is the mode's name in letters of either case or a
numeral of its position, blanks around it aside. -/
theorem lookup_accepts_grammar (selector : String) :
    (∀ m, Mode.lookup selector = some m ↔ m.SelectedBy (trim selector.toList)) ∧
    (∀ m m' : Mode, m.SelectedBy (trim selector.toList) → m'.SelectedBy (trim selector.toList) →
      m = m') ∧
    (∀ (m : Mode) (zeros : Nat),
      trim selector.toList = List.replicate zeros '0' ++ Nat.toDigits 10 m.index →
        Mode.lookup selector = some m) ∧
    (∀ n, Numeral (trim selector.toList) n → Mode.all.length ≤ n → Mode.lookup selector = none) ∧
    ∀ m, Mode.lookup selector = some m → ∀ c ∈ trim selector.toList, c.toNat < 128 := by
  refine ⟨fun m => Mode.lookup_eq_some_iff, ?_, ?_, ?_, ?_⟩
  · intro m m' h h'
    rw [← Mode.lookup_eq_some_iff] at h h'
    exact Option.some.inj (h.symm.trans h')
  · intro m zeros h
    have hnumeral := numeral_zeros_toDigits zeros m.index
    rw [← h] at hnumeral
    rw [Mode.lookup_of_numeral hnumeral, m.getElem?_all_index]
  · intro n hn hlarge
    rw [Mode.lookup_of_numeral hn, List.getElem?_eq_none hlarge]
  · exact fun m h => (Mode.lookup_eq_some_iff.mp h).ascii

/-- The number is 2 more than the numbers of one machine word. -/
theorem lookup_accepts_grammar_past_word :
    (trim "\t0002 ".toList = List.replicate 3 '0' ++ Nat.toDigits 10 (Mode.read .count false).index ∧
      Mode.lookup "\t0002 " = some (.read .count false)) ∧
    (Numeral (trim "18446744073709551618".toList) 18446744073709551618 ∧
      Mode.lookup "18446744073709551618" = none) ∧
    ((Mode.print .oneCell).SelectedBy (trim " Print-ONE-Cell".toList) ∧
      Mode.lookup " Print-ONE-Cell" = some (.print .oneCell)) := by
  obtain ⟨-, -, hzeros, -⟩ := lookup_accepts_grammar "\t0002 "
  obtain ⟨-, -, -, hlarge, -⟩ := lookup_accepts_grammar "18446744073709551618"
  obtain ⟨hname, -⟩ := lookup_accepts_grammar " Print-ONE-Cell"
  have htext : trim "\t0002 ".toList =
      List.replicate 3 '0' ++ Nat.toDigits 10 (Mode.read .count false).index := by decide
  have hnumeral : Numeral (trim "18446744073709551618".toList) 18446744073709551618 :=
    .digits (by decide) (List.all_eq_true.mp rfl)
  have hmode : Mode.lookup " Print-ONE-Cell" = some (.print .oneCell) := by decide
  exact ⟨⟨htext, hzeros _ 3 htext⟩, ⟨hnumeral, hlarge _ hnumeral (by decide)⟩,
    (hname _).mp hmode, hmode⟩

end TapeScribe
