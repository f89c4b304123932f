import TapeScribe.Argument

namespace TapeScribe

namespace Argument

def IsLetter (b : UInt8) : Prop :=
  b = 'p'.toUInt8 ∨ (Flag.ofLetter? b).isSome

/-- Option letters in a row. A placeholder ends them and takes the letters behind it for its value;
without any, the next argument is its value. -/
inductive Bundle : List UInt8 → List OptionUse → Prop
  | last {b f} : Flag.ofLetter? b = some f → Bundle [b] [.flag f]
  | flag {b f letters uses} : Flag.ofLetter? b = some f → Bundle letters uses →
      Bundle (b :: letters) (.flag f :: uses)
  | awaiting : Bundle ['p'.toUInt8] [.placeholder none]
  | value {value} : value ≠ [] → (∀ b ∈ value, IsLetter b) →
      Bundle ('p'.toUInt8 :: value) [.placeholder (some value)]

/-- The options that an argument gives: one by its name, or some by their letters. -/
inductive Gives : List UInt8 → List OptionUse → Prop
  | flag (f : Flag) : Gives (Utf8.encode ("--" ++ f.name)) [.flag f]
  | awaiting : Gives (Utf8.encode "--placeholder") [.placeholder none]
  | value (value) : Gives (Utf8.encode "--placeholder=" ++ value) [.placeholder (some value)]
  | letters {letters uses} : Bundle letters uses → Gives ('-'.toUInt8 :: letters) uses

/-- An argument that gives no option and is not the mark that ends them. -/
def IsWord (a : List UInt8) : Prop :=
  a ≠ Utf8.encode "--" ∧ ∀ uses, ¬Gives a uses

/-- Only the last option of an argument can leave its value to the next one. -/
def EndsOpen (uses : List OptionUse) : Prop :=
  ∃ before, .placeholder none ∉ before ∧ uses = before ++ [.placeholder none]

variable {letters long a : List UInt8} {uses uses' : List OptionUse}

theorem bundle_usesOfLetters (hne : letters ≠ []) (hall : ∀ b ∈ letters, IsLetter b) :
    Bundle letters (usesOfLetters letters) := by
  induction letters with
  | nil => exact absurd rfl hne
  | cons b rest ih =>
    rw [List.forall_mem_cons] at hall
    cases hb : Flag.ofLetter? b with
    | some f =>
      rw [usesOfLetters, hb]
      by_cases hr : rest = []
      · subst hr
        exact .last hb
      · exact .flag hb (ih hr hall.2)
    | none =>
      obtain rfl : b = 'p'.toUInt8 := hall.1.resolve_right (by simp [hb])
      rw [usesOfLetters, hb]
      by_cases hr : rest = []
      · subst hr
        exact .awaiting
      · simpa [hr] using Bundle.value hr hall.2

theorem Bundle.isLetter (h : Bundle letters uses) : ∀ b ∈ letters, IsLetter b := by
  induction h with
  | last hb => simp [IsLetter, hb]
  | flag hb _ ih => simpa [IsLetter, hb] using ih
  | awaiting => simp [IsLetter]
  | value _ hall => simpa [IsLetter] using hall

theorem Bundle.usesOfLetters_eq (h : Bundle letters uses) : usesOfLetters letters = uses := by
  induction h with
  | last hb => simp [usesOfLetters, hb]
  | flag hb _ ih => simp [usesOfLetters, hb, ih]
  | awaiting => rfl
  | value hne _ =>
    rw [usesOfLetters, show Flag.ofLetter? 'p'.toUInt8 = none from rfl, if_neg hne]

theorem Bundle.ne_nil (h : Bundle letters uses) : letters ≠ [] ∧ uses ≠ [] := by
  cases h <;> simp

theorem ofLetters_eq_options_iff : ofLetters letters = .options uses ↔ Bundle letters uses := by
  have hall : letters.all (fun b => b = 'p'.toUInt8 ∨ (Flag.ofLetter? b).isSome) = true ↔
      ∀ b ∈ letters, IsLetter b := by simp [IsLetter]
  unfold ofLetters
  constructor
  · intro h
    split at h
    next hl =>
      cases h
      exact bundle_usesOfLetters hl.1 (hall.mp hl.2)
    next => cases h
  · intro h
    rw [if_pos ⟨h.ne_nil.1, hall.mpr h.isLetter⟩, h.usesOfLetters_eq]

/-- What stands behind a name. -/
def valuePart (value : Option (List UInt8)) : List UInt8 :=
  value.elim [] ('='.toUInt8 :: ·)

theorem exists_name_value (long : List UInt8) :
    ∃ name value, '='.toUInt8 ∉ name ∧ long = name ++ valuePart value := by
  by_cases h : '='.toUInt8 ∈ long
  · obtain ⟨name, value, rfl, hname⟩ := List.eq_append_cons_of_mem h
    exact ⟨name, some value, hname, rfl⟩
  · exact ⟨long, none, h, (List.append_nil _).symm⟩

theorem takeWhile_name {name : List UInt8} (hname : '='.toUInt8 ∉ name)
    (value : Option (List UInt8)) :
    (name ++ valuePart value).takeWhile (· ≠ '='.toUInt8) = name := by
  rw [List.takeWhile_append_of_pos (fun b hb => decide_eq_true (ne_of_mem_of_not_mem hb hname))]
  cases value <;> simp [valuePart]

theorem tail?_dropWhile_name {name : List UInt8} (hname : '='.toUInt8 ∉ name)
    (value : Option (List UInt8)) :
    ((name ++ valuePart value).dropWhile (· ≠ '='.toUInt8)).tail? = value := by
  rw [List.dropWhile_append_of_pos (fun b hb => decide_eq_true (ne_of_mem_of_not_mem hb hname))]
  cases value <;> simp [valuePart]

theorem gives_of_ofLong (h : ofLong long = .options uses) :
    Gives ('-'.toUInt8 :: '-'.toUInt8 :: long) uses := by
  obtain ⟨bytes, value, hname, rfl⟩ := exists_name_value long
  simp only [ofLong, takeWhile_name hname, tail?_dropWhile_name hname] at h
  cases hdecode : Utf8.decode? bytes with
  | none => simp [hdecode] at h
  | some name =>
    obtain rfl := Utf8.decode?_eq_some_iff.mp hdecode
    simp only [hdecode] at h
    split at h
    next hp =>
      subst hp
      cases h
      cases value with
      | none => exact .awaiting
      | some value => exact .value value
    next =>
      cases hf : Flag.ofName? name with
      | none => simp [hf] at h
      | some f =>
        obtain rfl : f.name = name := by simpa using List.find?_some hf
        cases value with
        | none =>
          simp only [hf] at h
          cases h
          have hdashes : Utf8.encode ("--" ++ f.name) =
              '-'.toUInt8 :: '-'.toUInt8 :: (Utf8.encode f.name ++ valuePart none) := by
            cases f <;> rfl
          rw [← hdashes]
          exact .flag f
        | some value => simp [hf] at h

theorem ofLong_value (value : List UInt8) :
    ofLong (Utf8.encode "placeholder=" ++ value) = .options [.placeholder (some value)] := by
  have hname : '='.toUInt8 ∉ Utf8.encode "placeholder" := by decide
  have hlong : Utf8.encode "placeholder=" ++ value =
      Utf8.encode "placeholder" ++ valuePart (some value) := rfl
  simp only [hlong, ofLong, takeWhile_name hname, tail?_dropWhile_name hname, Utf8.decode?_encode,
    if_true]

theorem ofLong_ne_endOfOptions (long : List UInt8) : ofLong long ≠ .endOfOptions := by
  simp only [ofLong]
  split
  · simp
  · split
    · simp
    · split <;> simp

theorem ofLetters_ne_endOfOptions (letters : List UInt8) :
    ofLetters letters ≠ .endOfOptions := by
  unfold ofLetters
  split <;> simp

theorem ofBytes_letters (h : Bundle letters uses) :
    ofBytes ('-'.toUInt8 :: letters) = .options uses := by
  cases letters with
  | nil => exact absurd rfl h.ne_nil.1
  | cons b rest =>
    have hb : b ≠ '-'.toUInt8 := by
      rintro rfl
      have hdash : ¬IsLetter '-'.toUInt8 := by
        rw [IsLetter]
        decide
      exact hdash (h.isLetter _ List.mem_cons_self)
    rw [ofBytes, if_pos rfl]
    simp only [if_neg hb]
    exact ofLetters_eq_options_iff.mpr h

theorem ofBytes_cases (a : List UInt8) :
    ofBytes a = .plain ∨ (a = Utf8.encode "--" ∧ ofBytes a = .endOfOptions) ∨
    (∃ long, a = '-'.toUInt8 :: '-'.toUInt8 :: long ∧ ofBytes a = ofLong long) ∨
    ∃ letters, a = '-'.toUInt8 :: letters ∧ ofBytes a = ofLetters letters := by
  cases a with
  | nil => exact Or.inl rfl
  | cons b rest =>
    by_cases hb : b = '-'.toUInt8
    · subst hb
      cases rest with
      | nil => exact Or.inl rfl
      | cons b long =>
        by_cases hb : b = '-'.toUInt8
        · subst hb
          by_cases hl : long = []
          · subst hl
            exact Or.inr (Or.inl ⟨rfl, rfl⟩)
          · exact Or.inr (Or.inr (Or.inl ⟨long, rfl, by simp [ofBytes, hl]⟩))
        · exact Or.inr (Or.inr (Or.inr ⟨b :: long, rfl, by simp [ofBytes, hb]⟩))
    · exact Or.inl (by simp [ofBytes, hb])

/-- An argument is taken for options exactly when it gives them. -/
theorem ofBytes_eq_options_iff : ofBytes a = .options uses ↔ Gives a uses := by
  constructor
  · intro h
    rcases ofBytes_cases a with ha | ⟨-, ha⟩ | ⟨long, rfl, ha⟩ | ⟨letters, rfl, ha⟩
    · simp [ha] at h
    · simp [ha] at h
    · exact gives_of_ofLong (ha.symm.trans h)
    · exact .letters (ofLetters_eq_options_iff.mp (ha.symm.trans h))
  · intro h
    cases h with
    | flag f => cases f <;> decide
    | awaiting => decide
    | value value => exact ofLong_value value
    | letters h => exact ofBytes_letters h

theorem eq_mark_of_endOfOptions (h : ofBytes a = .endOfOptions) : a = Utf8.encode "--" := by
  rcases ofBytes_cases a with ha | ⟨rfl, -⟩ | ⟨long, rfl, ha⟩ | ⟨letters, rfl, ha⟩
  · simp [ha] at h
  · rfl
  · exact absurd (ha.symm.trans h) (ofLong_ne_endOfOptions long)
  · exact absurd (ha.symm.trans h) (ofLetters_ne_endOfOptions letters)

theorem Gives.unique (h : Gives a uses) (h' : Gives a uses') : uses = uses' := by
  have heq := (ofBytes_eq_options_iff.mpr h).symm.trans (ofBytes_eq_options_iff.mpr h')
  cases heq
  rfl

theorem Gives.ne_mark (h : Gives a uses) : a ≠ Utf8.encode "--" := by
  rintro rfl
  have hmark : ofBytes (Utf8.encode "--") = .endOfOptions := by decide
  rw [ofBytes_eq_options_iff.mpr h] at hmark
  cases hmark

theorem isWord_of_plain (h : ofBytes a = .plain) : IsWord a := by
  refine ⟨?_, fun uses hg => ?_⟩
  · rintro rfl
    exact absurd h (by decide)
  · rw [ofBytes_eq_options_iff.mpr hg] at h
    cases h

theorem Bundle.closed_or_endsOpen (h : Bundle letters uses) :
    .placeholder none ∉ uses ∨ EndsOpen uses := by
  induction h with
  | last => exact Or.inl (by simp)
  | flag _ _ ih =>
    rcases ih with hclosed | ⟨before, hbefore, rfl⟩
    · exact Or.inl (by simp [hclosed])
    · exact Or.inr ⟨_ :: before, by simp [hbefore], rfl⟩
  | awaiting => exact Or.inr ⟨[], by simp, rfl⟩
  | value => exact Or.inl (by simp)

theorem Gives.closed_or_endsOpen (h : Gives a uses) :
    .placeholder none ∉ uses ∨ EndsOpen uses := by
  cases h with
  | flag f => exact Or.inl (by simp)
  | awaiting => exact Or.inr ⟨[], by simp, rfl⟩
  | value value => exact Or.inl (by simp)
  | letters h => exact h.closed_or_endsOpen

theorem Gives.ne_nil (h : Gives a uses) : uses ≠ [] := by
  cases h with
  | letters h => exact h.ne_nil.2
  | _ => simp

end Argument

end TapeScribe
