import TapeScribe.Decimal

namespace TapeScribe

/-- A decimal numeral, with any zeros and at most one plus sign in front, and its number. -/
inductive Numeral : List Char → Nat → Prop
  | digits {s} : s ≠ [] → (∀ c ∈ s, c.isDigit) → Numeral s (Nat.ofDigitChars 10 s 0)
  | signed {s} : s ≠ [] → (∀ c ∈ s, c.isDigit) → Numeral ('+' :: s) (Nat.ofDigitChars 10 s 0)

variable {s : List Char} {n n' : Nat}

namespace Decimal

/-- More digits never make a number smaller, so one that has no room in a word gets none later. -/
theorem le_ofDigitChars (digits : List Char) (n : Nat) : n ≤ Nat.ofDigitChars 10 digits n := by
  induction digits generalizing n with
  | nil => exact Nat.le_refl n
  | cons c rest ih =>
    have hle := ih (10 * n + (c.toNat - '0'.toNat))
    rw [Nat.ofDigitChars_cons]
    omega

theorem pushAll?_eq_some_iff {digits : List Char} {k m : UInt64} :
    pushAll? k digits = some m ↔
      (∀ c ∈ digits, c.isDigit) ∧ m.toNat = Nat.ofDigitChars 10 digits k.toNat := by
  induction digits generalizing k with
  | nil =>
    rw [pushAll?, Option.some_inj, ← UInt64.toNat_inj, Nat.ofDigitChars_nil]
    exact ⟨fun h => ⟨by simp, h.symm⟩, fun h => h.2.symm⟩
  | cons c rest ih =>
    rw [pushAll?, Option.bind_eq_some_iff, Nat.ofDigitChars_cons, List.forall_mem_cons]
    constructor
    · rintro ⟨l, hl, hrest⟩
      obtain ⟨hdigit, hvalue⟩ := push?_eq_some_iff.mp hl
      rw [ih, hvalue] at hrest
      exact ⟨⟨hdigit, hrest.1⟩, hrest.2⟩
    · rintro ⟨⟨hdigit, hdigits⟩, hm⟩
      have hle := le_ofDigitChars rest (10 * k.toNat + (c.toNat - '0'.toNat))
      have hroom := m.toNat_lt_size
      obtain ⟨l, hl⟩ : ∃ l : UInt64, l.toNat = 10 * k.toNat + (c.toNat - '0'.toNat) :=
        ⟨UInt64.ofNatLT _ (by omega), UInt64.toNat_ofNatLT⟩
      rw [← hl] at hm
      exact ⟨l, push?_eq_some_iff.mpr ⟨hdigit, hl⟩, ih.mpr ⟨hdigits, hm⟩⟩

theorem unsigned_of_digits (h : ∀ c ∈ s, c.isDigit) : unsigned s = s := by
  unfold unsigned
  split
  next => exact absurd (h '+' (by simp)) (by decide)
  next => rfl

theorem eq_unsigned_or (s : List Char) : s = unsigned s ∨ s = '+' :: unsigned s := by
  unfold unsigned
  split
  next => exact Or.inr rfl
  next => exact Or.inl rfl

theorem numeral_iff :
    Numeral s n ↔
      unsigned s ≠ [] ∧ (∀ c ∈ unsigned s, c.isDigit) ∧ n = Nat.ofDigitChars 10 (unsigned s) 0 := by
  constructor
  · intro h
    cases h with
    | digits hne hdigits =>
      rw [unsigned_of_digits hdigits]
      exact ⟨hne, hdigits, rfl⟩
    | signed hne hdigits => exact ⟨hne, hdigits, rfl⟩
  · rintro ⟨hne, hdigits, rfl⟩
    have hs := eq_unsigned_or s
    generalize unsigned s = digits at hne hdigits hs ⊢
    rcases hs with rfl | rfl
    · exact .digits hne hdigits
    · exact .signed hne hdigits

/-- In a machine word there are the numerals whose numbers have room in it, and no others. -/
theorem parse?_eq_some_iff {k : UInt64} : parse? s = some k ↔ Numeral s k.toNat := by
  rw [numeral_iff, parse?]
  by_cases hne : unsigned s = []
  · simp [hne]
  · simp [hne, pushAll?_eq_some_iff]

theorem parse?_eq_none (h : Numeral s n) (hlarge : UInt64.size ≤ n) : parse? s = none := by
  rw [Option.eq_none_iff_forall_ne_some]
  intro k hk
  rw [parse?_eq_some_iff, numeral_iff] at hk
  rw [numeral_iff] at h
  have hroom := k.toNat_lt_size
  omega

end Decimal

open Decimal

theorem Numeral.unique (h : Numeral s n) (h' : Numeral s n') : n = n' := by
  rw [numeral_iff] at h h'
  rw [h.2.2, h'.2.2]

/-- The characters of a numeral by their codes: the plus sign and the digits. -/
theorem Numeral.code_of_mem (h : Numeral s n) {c : Char} (hc : c ∈ s) :
    c.toNat = 43 ∨ 48 ≤ c.toNat ∧ c.toNat ≤ 57 := by
  cases h with
  | digits _ hdigits => exact Or.inr (Char.isDigit_iff_toNat.mp (hdigits c hc))
  | signed _ hdigits =>
    rcases List.mem_cons.mp hc with rfl | hc
    · exact Or.inl rfl
    · exact Or.inr (Char.isDigit_iff_toNat.mp (hdigits c hc))

theorem Numeral.ne_nil (h : Numeral s n) : s ≠ [] := by
  cases h with
  | digits hne _ => exact hne
  | signed _ _ => exact List.cons_ne_nil _ _

/-- Every number has numerals, with any number of zeros in front. -/
theorem numeral_zeros_toDigits (zeros n : Nat) :
    Numeral (List.replicate zeros '0' ++ Nat.toDigits 10 n) n := by
  have hdigits : ∀ c ∈ List.replicate zeros '0' ++ Nat.toDigits 10 n, c.isDigit := by
    rw [List.forall_mem_append]
    constructor
    · intro c hc
      rw [List.eq_of_mem_replicate hc]
      decide
    · exact fun c hc => Nat.isDigit_of_mem_toDigits (by decide) (by decide) hc
  have hvalue : Nat.ofDigitChars 10 (List.replicate zeros '0' ++ Nat.toDigits 10 n) 0 = n := by
    rw [Nat.ofDigitChars_append, Nat.ofDigitChars_replicate_zero, Nat.mul_zero,
      Nat.ofDigitChars_ten_toDigits]
  have h := Numeral.digits (List.append_ne_nil_of_right_ne_nil _ Nat.toDigits_ne_nil) hdigits
  rwa [hvalue] at h

end TapeScribe
