import TapeScribe.Utf8

namespace TapeScribe

namespace Utf8

/-- The numbers of characters. The gap is left for the halves of pairs in another encoding. -/
def IsScalar (n : Nat) : Prop :=
  n < 0xD800 ∨ 0xDFFF < n ∧ n ≤ 0x10FFFF

/-- The bits of a number in groups of six, and the rest in the lead byte with the number of
groups. -/
def scalarBytes (n : Nat) : List Nat :=
  if n < 0x80 then [n]
  else if n < 0x800 then [0xC0 + n / 0x40, 0x80 + n % 0x40]
  else if n < 0x10000 then [0xE0 + n / 0x1000, 0x80 + n / 0x40 % 0x40, 0x80 + n % 0x40]
  else [0xF0 + n / 0x40000, 0x80 + n / 0x1000 % 0x40, 0x80 + n / 0x40 % 0x40, 0x80 + n % 0x40]

def Encodes (scalars : List Nat) (bytes : List UInt8) : Prop :=
  (∀ n ∈ scalars, IsScalar n) ∧ bytes.map UInt8.toNat = scalars.flatMap scalarBytes

theorem isScalar_toNat (c : Char) : IsScalar c.toNat := by
  have hvalid := c.valid
  simp only [UInt32.isValidChar, Nat.isValidChar] at hvalid
  change IsScalar c.val.toNat
  unfold IsScalar
  omega

theorem exists_char {n : Nat} (h : IsScalar n) : ∃ c : Char, c.toNat = n := by
  have hvalid : n.isValidChar := by
    unfold IsScalar at h
    unfold Nat.isValidChar
    omega
  refine ⟨Char.ofNat n, ?_⟩
  rw [Char.ofNat, dif_pos hvalid]
  rfl

theorem map_toNat_utf8EncodeChar (c : Char) :
    (String.utf8EncodeChar c).map UInt8.toNat = scalarBytes c.toNat := by
  have hscalar : IsScalar c.val.toNat := isScalar_toNat c
  change _ = scalarBytes c.val.toNat
  unfold IsScalar at hscalar
  rw [String.utf8EncodeChar, scalarBytes]
  generalize c.val.toNat = n at hscalar ⊢
  by_cases h1 : n < 0x80
  · rw [if_pos (by omega), if_pos h1]
    simp only [List.map_cons, List.map_nil, UInt8.toNat_ofNat', List.cons.injEq, and_true]
    omega
  by_cases h2 : n < 0x800
  · rw [if_neg (by omega), if_pos (by omega), if_neg h1, if_pos h2]
    simp only [List.map_cons, List.map_nil, UInt8.toNat_ofNat', List.cons.injEq, and_true]
    omega
  by_cases h3 : n < 0x10000
  · rw [if_neg (by omega), if_neg (by omega), if_pos (by omega), if_neg h1, if_neg h2, if_pos h3]
    simp only [List.map_cons, List.map_nil, UInt8.toNat_ofNat', List.cons.injEq, and_true]
    omega
  · rw [if_neg (by omega), if_neg (by omega), if_neg (by omega), if_neg h1, if_neg h2, if_neg h3]
    simp only [List.map_cons, List.map_nil, UInt8.toNat_ofNat', List.cons.injEq, and_true]
    omega

theorem map_toNat_encode (s : String) :
    (encode s).map UInt8.toNat = (s.toList.map Char.toNat).flatMap scalarBytes := by
  rw [encode, List.map_flatMap, List.flatMap_map]
  congr 1
  funext c
  exact map_toNat_utf8EncodeChar c

/-- A number of ASCII is its own byte. Any other has a lead byte above ASCII and more behind it. -/
theorem scalarBytes_cases (n : Nat) :
    n < 0x80 ∧ scalarBytes n = [n] ∨
      ∃ lead next tail, 0x80 ≤ lead ∧ scalarBytes n = lead :: next :: tail := by
  unfold scalarBytes
  split
  next h => exact Or.inl ⟨h, rfl⟩
  right
  split
  · exact ⟨_, _, _, Nat.le_add_right_of_le (by decide), rfl⟩
  split
  · exact ⟨_, _, _, Nat.le_add_right_of_le (by decide), rfl⟩
  · exact ⟨_, _, _, Nat.le_add_right_of_le (by decide), rfl⟩

theorem scalarBytes_ne_nil (n : Nat) : scalarBytes n ≠ [] := by
  rcases scalarBytes_cases n with ⟨-, h⟩ | ⟨_, _, _, -, h⟩ <;> simp [h]

/-- The characters of ASCII are the texts of one byte. -/
theorem encode_eq_singleton_iff {s : String} {b : UInt8} :
    encode s = [b] ↔ ∃ c, s.toList = [c] ∧ c.toNat < 0x80 ∧ b.toNat = c.toNat := by
  rw [← List.map_inj_right (fun _ _ => UInt8.toNat_inj.mp), map_toNat_encode]
  constructor
  · intro h
    cases hchars : s.toList with
    | nil => simp [hchars] at h
    | cons c rest =>
      rw [hchars, List.map_cons, List.flatMap_cons, List.map_cons, List.map_nil] at h
      rcases scalarBytes_cases c.toNat with ⟨hascii, hbytes⟩ | ⟨_, _, _, -, hbytes⟩
      · rw [hbytes, List.singleton_append, List.cons.injEq] at h
        cases rest with
        | nil => exact ⟨c, rfl, hascii, h.1.symm⟩
        | cons d rest => simp [scalarBytes_ne_nil] at h
      · simp [hbytes] at h
  · rintro ⟨c, hc, hascii, hb⟩
    simp [hc, scalarBytes, hascii, hb]

/-- A byte of ASCII at the start of a text is the text's first character. -/
theorem head?_toList_of_encode_cons {s : String} {c : Char} {rest : List UInt8}
    (hascii : c.toNat < 0x80) (h : encode s = c.toUInt8 :: rest) : s.toList.head? = some c := by
  have hbytes := map_toNat_encode s
  have hc : c.toUInt8.toNat = c.toNat := by
    change c.val.toUInt8.toNat = c.val.toNat
    rw [UInt32.toNat_toUInt8]
    exact Nat.mod_eq_of_lt (Nat.lt_trans hascii (by decide))
  rw [h, List.map_cons, hc] at hbytes
  cases hchars : s.toList with
  | nil => simp [hchars] at hbytes
  | cons d more =>
    rw [hchars, List.map_cons, List.flatMap_cons] at hbytes
    rcases scalarBytes_cases d.toNat with ⟨-, hd⟩ | ⟨lead, next, tail, hlead, hd⟩
    · rw [hd, List.singleton_append, List.cons.injEq] at hbytes
      exact congrArg some (Char.toNat_inj.mp hbytes.1.symm)
    · rw [hd, List.cons_append, List.cons.injEq] at hbytes
      omega

theorem exists_chars {scalars : List Nat} (h : ∀ n ∈ scalars, IsScalar n) :
    ∃ chars : List Char, chars.map Char.toNat = scalars := by
  induction scalars with
  | nil => exact ⟨[], rfl⟩
  | cons n rest ih =>
    obtain ⟨c, hc⟩ := exists_char (h n (by simp))
    obtain ⟨chars, hchars⟩ := ih fun m hm => h m (by simp [hm])
    exact ⟨c :: chars, by rw [List.map_cons, hc, hchars]⟩

/-- What the rules for numbers encode are the texts, number by number. -/
theorem encodes_iff {scalars : List Nat} {bytes : List UInt8} :
    Encodes scalars bytes ↔ ∃ s : String, s.toList.map Char.toNat = scalars ∧ bytes = encode s := by
  constructor
  · rintro ⟨hscalars, hbytes⟩
    obtain ⟨chars, rfl⟩ := exists_chars hscalars
    refine ⟨String.ofList chars, by simp, ?_⟩
    rw [← List.map_inj_right (fun _ _ => UInt8.toNat_inj.mp), hbytes, map_toNat_encode,
      String.toList_ofList]
  · rintro ⟨s, rfl, rfl⟩
    refine ⟨?_, map_toNat_encode s⟩
    intro n hn
    obtain ⟨c, -, rfl⟩ := List.mem_map.mp hn
    exact isScalar_toNat c

/-- The bytes that go on with a character and begin none. -/
def IsTail (b : Nat) : Prop :=
  0x80 ≤ b ∧ b ≤ 0xBF

/-- The forms of a character by its lead byte. The bounds on the next byte keep out longer forms
than it takes, the gap and what is past the last number. -/
inductive Shape : List Nat → Prop where
  | one {a : Nat} (ha : a ≤ 0x7F) : Shape [a]
  | two {a b : Nat} (ha : 0xC2 ≤ a ∧ a ≤ 0xDF) (hb : IsTail b) : Shape [a, b]
  | three {a b c : Nat} (ha : 0xE0 ≤ a ∧ a ≤ 0xEF) (hb : IsTail b) (hc : IsTail c)
      (hlow : a = 0xE0 → 0xA0 ≤ b) (hgap : a = 0xED → b ≤ 0x9F) : Shape [a, b, c]
  | four {a b c d : Nat} (ha : 0xF0 ≤ a ∧ a ≤ 0xF4) (hb : IsTail b) (hc : IsTail c) (hd : IsTail d)
      (hlow : a = 0xF0 → 0x90 ≤ b) (hlast : a = 0xF4 → b ≤ 0x8F) : Shape [a, b, c, d]

inductive WellFormed : List Nat → Prop where
  | nil : WellFormed []
  | cons {char rest : List Nat} (h : Shape char) (t : WellFormed rest) : WellFormed (char ++ rest)

theorem isTail_group (n : Nat) : IsTail (0x80 + n % 0x40) := by
  unfold IsTail
  omega

theorem shape_scalarBytes {n : Nat} (h : IsScalar n) : Shape (scalarBytes n) := by
  unfold IsScalar at h
  unfold scalarBytes
  split
  · exact .one (by omega)
  split
  · exact .two (by omega) (isTail_group _)
  split
  · exact .three (by omega) (isTail_group _) (isTail_group _) (by omega) (by omega)
  · exact .four (by omega) (isTail_group _) (isTail_group _) (isTail_group _) (by omega) (by omega)

theorem Shape.exists_scalar {char : List Nat} (h : Shape char) :
    ∃ n, IsScalar n ∧ scalarBytes n = char := by
  unfold IsScalar
  cases h with
  | @one a ha =>
    refine ⟨a, by omega, ?_⟩
    rw [scalarBytes, if_pos (by omega)]
  | @two a b ha hb =>
    unfold IsTail at hb
    refine ⟨(a - 0xC0) * 0x40 + (b - 0x80), by omega, ?_⟩
    rw [scalarBytes, if_neg (by omega), if_pos (by omega)]
    simp only [List.cons.injEq, and_true]
    omega
  | @three a b c ha hb hc hlow hgap =>
    unfold IsTail at hb hc
    refine ⟨(a - 0xE0) * 0x1000 + (b - 0x80) * 0x40 + (c - 0x80), by omega, ?_⟩
    rw [scalarBytes, if_neg (by omega), if_neg (by omega), if_pos (by omega)]
    simp only [List.cons.injEq, and_true]
    omega
  | @four a b c d ha hb hc hd hlow hlast =>
    unfold IsTail at hb hc hd
    refine ⟨(a - 0xF0) * 0x40000 + (b - 0x80) * 0x1000 + (c - 0x80) * 0x40 + (d - 0x80),
      by omega, ?_⟩
    rw [scalarBytes, if_neg (by omega), if_neg (by omega), if_neg (by omega)]
    simp only [List.cons.injEq, and_true]
    omega

theorem wellFormed_flatMap {scalars : List Nat} (h : ∀ n ∈ scalars, IsScalar n) :
    WellFormed (scalars.flatMap scalarBytes) := by
  induction scalars with
  | nil => exact .nil
  | cons n rest ih =>
    rw [List.flatMap_cons]
    exact .cons (shape_scalarBytes (h n (by simp))) (ih fun m hm => h m (by simp [hm]))

theorem WellFormed.exists_scalars {bytes : List Nat} (h : WellFormed bytes) :
    ∃ scalars : List Nat, (∀ n ∈ scalars, IsScalar n) ∧ bytes = scalars.flatMap scalarBytes := by
  induction h with
  | nil => exact ⟨[], by simp, rfl⟩
  | cons hchar _ ih =>
    obtain ⟨n, hn, rfl⟩ := hchar.exists_scalar
    obtain ⟨scalars, hscalars, rfl⟩ := ih
    exact ⟨n :: scalars, List.forall_mem_cons.mpr ⟨hn, hscalars⟩, rfl⟩

/-- Bytes encode numbers exactly if they part into the forms of characters. -/
theorem exists_encodes_iff {bytes : List UInt8} :
    (∃ scalars, Encodes scalars bytes) ↔ WellFormed (bytes.map UInt8.toNat) := by
  constructor
  · rintro ⟨scalars, hscalars, hbytes⟩
    rw [hbytes]
    exact wellFormed_flatMap hscalars
  · exact WellFormed.exists_scalars

end Utf8

end TapeScribe
