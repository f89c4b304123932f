namespace TapeScribe

namespace Decimal

/-- The number with a digit put behind it, if it is one and the word has room. -/
def push? (n : UInt64) (c : Char) : Option UInt64 :=
  let value := 10 * n.toNat + (c.toNat - '0'.toNat)
  if h : c.isDigit ∧ value < UInt64.size then some (UInt64.ofNatLT value h.2) else none

def pushAll? (n : UInt64) : List Char → Option UInt64
  | [] => some n
  | c :: rest => (push? n c).bind fun n => pushAll? n rest

/-- At most one plus sign is taken off. -/
def unsigned : List Char → List Char
  | '+' :: digits => digits
  | digits => digits

/-- The number of a decimal numeral that fits in one machine word. -/
def parse? (s : List Char) : Option UInt64 :=
  let digits := unsigned s
  if digits = [] then none else pushAll? 0 digits

theorem push?_eq_some_iff {n m : UInt64} {c : Char} :
    push? n c = some m ↔ c.isDigit ∧ m.toNat = 10 * n.toNat + (c.toNat - '0'.toNat) := by
  simp only [push?]
  constructor
  · intro h
    split at h
    next hdigit =>
      cases h
      exact ⟨hdigit.1, UInt64.toNat_ofNatLT⟩
    next => cases h
  · rintro ⟨hdigit, hvalue⟩
    have hroom := m.toNat_lt_size
    rw [hvalue] at hroom
    rw [dif_pos ⟨hdigit, hroom⟩]
    congr 1
    apply UInt64.toNat_inj.mp
    rw [hvalue]
    exact UInt64.toNat_ofNatLT

end Decimal

end TapeScribe
