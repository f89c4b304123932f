import TapeScribe.Settings
import TapeScribe.Proofs.TextLines

namespace TapeScribe

namespace Settings

/-- A header stands in square brackets. -/
def IsHeader (line title : List Char) : Prop :=
  ∃ inner, trim line = '[' :: (inner ++ [']']) ∧ title = trim inner

/-- Text in double quotes stands for what is between them, any other for itself. -/
inductive Unquotes : List Char → List Char → Prop
  | quoted (value) : Unquotes ('"' :: (value ++ ['"'])) value
  | bare {value} : (∀ inner, value ≠ '"' :: (inner ++ ['"'])) → Unquotes value value

/-- A line with an equals sign, the first of which parts key and value, and no comment or header. -/
def IsEntry (line key value : List Char) : Prop :=
  (trim line).head? ≠ some '#' ∧ (∀ title, ¬IsHeader line title) ∧
    ∃ before after, trim line = before ++ '=' :: after ∧ '=' ∉ before ∧ key = trim before ∧
      Unquotes (trim after) value

/-- The nearest header above is the one of the section on programs. -/
def InSection (above : List (List Char)) : Prop :=
  ∃ earlier header between, above = earlier ++ header :: between ∧
    IsHeader header "generate".toList ∧ ∀ line ∈ between, ∀ title, ¬IsHeader line title

/-- The line below some others counts, and its value for the key means something. -/
def Tells {α : Type} (key : String) (means : List Char → α → Prop) (above : List (List Char))
    (line : List Char) (a : α) : Prop :=
  InSection above ∧ ∃ value, IsEntry line key.toList value ∧ means value a

/-- What the last line tells of those that tell anything. -/
inductive LastTold {α : Type} (tells : List (List Char) → List Char → α → Prop)
    (texts : List (List Char)) : Option α → Prop
  | silent : (∀ above line below a, texts = above ++ line :: below → ¬tells above line a) →
      LastTold tells texts none
  | told {above line below a} : texts = above ++ line :: below → tells above line a →
      (∀ between later rest a', below = between ++ later :: rest →
        ¬tells (above ++ line :: between) later a') →
      LastTold tells texts (some a)

def boolWords : Bool → List String
  | true => ["true", "yes", "on", "1"]
  | false => ["false", "no", "off", "0"]

/-- Neither blanks around a word nor capital letters in it count. -/
def MeansBool (value : List Char) (b : Bool) : Prop :=
  String.ofList (lower (trim value)) ∈ boolWords b

def MeansText (value : List Char) (text : String) : Prop :=
  text.toList = value

/-- Each setting is declared by the last line that counts for it, or else by default. -/
structure DeclaredBy (s : Settings) (texts : List (List Char)) : Prop where
  clearCell : ∃ last, LastTold (Tells "clear_cell" MeansBool) texts last ∧
    s.clearCell = last.getD false
  placeholder : LastTold (Tells "placeholder" MeansText) texts s.placeholder

variable {line key value title inner : List Char} {above texts : List (List Char)}

theorem between?_eq_some_iff {first last : Char} {s : List Char} :
    between? first last s = some inner ↔ s = first :: (inner ++ [last]) := by
  cases s with
  | nil => simp [between?]
  | cons c rest =>
    constructor
    · intro h
      rw [between?] at h
      split at h
      next hc =>
        obtain ⟨front, rfl⟩ := List.getLast?_eq_some_iff.mp hc.2
        cases h
        rw [hc.1, List.dropLast_concat]
      next => cases h
    · intro h
      obtain ⟨rfl, rfl⟩ := List.cons.inj h
      simp [between?]

theorem between?_eq_none_iff {first last : Char} {s : List Char} :
    between? first last s = none ↔ ∀ inner, s ≠ first :: (inner ++ [last]) := by
  simp [Option.eq_none_iff_forall_ne_some, between?_eq_some_iff]

theorem unquotes_iff {s : List Char} : Unquotes s value ↔ unquote s = value := by
  constructor
  · intro h
    cases h with
    | quoted value => rw [unquote, between?_eq_some_iff.mpr rfl, Option.getD_some]
    | bare h => rw [unquote, between?_eq_none_iff.mpr h, Option.getD_none]
  · rintro rfl
    rw [unquote]
    cases h : between? '"' '"' s with
    | none => exact .bare (between?_eq_none_iff.mp h)
    | some inner =>
      rw [between?_eq_some_iff.mp h]
      exact .quoted inner

theorem splitAtEquals_iff {s before after : List Char} :
    (s.takeWhile (· ≠ '=') = before ∧ s.dropWhile (· ≠ '=') = '=' :: after) ↔
      s = before ++ '=' :: after ∧ '=' ∉ before := by
  constructor
  · rintro ⟨rfl, hafter⟩
    refine ⟨?_, ?_⟩
    · rw [← hafter, List.takeWhile_append_dropWhile]
    · intro h
      simpa using List.mem_takeWhile_imp h
  · rintro ⟨rfl, hbefore⟩
    have hne : ∀ c ∈ before, decide (c ≠ '=') = true := by
      intro c hc
      exact decide_eq_true (ne_of_mem_of_not_mem hc hbefore)
    rw [List.takeWhile_append_of_pos hne, List.dropWhile_append_of_pos hne]
    simp

theorem ofChars_eq_header_iff : Line.ofChars line = .header title ↔ IsHeader line title := by
  constructor
  · intro h
    simp only [Line.ofChars] at h
    split at h
    next => cases h
    next =>
      split at h
      next inner hinner =>
        cases h
        exact ⟨inner, between?_eq_some_iff.mp hinner, rfl⟩
      next => split at h <;> cases h
  · rintro ⟨inner, hline, rfl⟩
    simp [Line.ofChars, hline, between?_eq_some_iff.mpr]

theorem IsHeader.unique {title' : List Char} (h : IsHeader line title) (h' : IsHeader line title') :
    title = title' := by
  have heq := (ofChars_eq_header_iff.mpr h).symm.trans (ofChars_eq_header_iff.mpr h')
  cases heq
  rfl

theorem ofChars_eq_entry_iff : Line.ofChars line = .entry key value ↔ IsEntry line key value := by
  constructor
  · intro h
    simp only [Line.ofChars] at h
    split at h
    next => cases h
    next hcomment =>
      split at h
      next => cases h
      next hbetween =>
        rw [between?_eq_none_iff] at hbetween
        have hheader : ∀ title, ¬IsHeader line title := by
          rintro title ⟨inner, hline, -⟩
          exact hbetween inner hline
        split at h
        next => cases h
        next c after hafter =>
          obtain rfl : c = '=' := by
            have hhead := List.head?_dropWhile_not (· ≠ '=') (trim line)
            rw [hafter] at hhead
            simpa using hhead
          cases h
          obtain ⟨hline, hkey⟩ := splitAtEquals_iff.mp ⟨rfl, hafter⟩
          exact ⟨hcomment, hheader, _, after, hline, hkey, rfl, unquotes_iff.mpr rfl⟩
  · rintro ⟨hcomment, hheader, before, after, hline, hbefore, rfl, hvalue⟩
    have hbetween : between? '[' ']' (trim line) = none := by
      rw [between?_eq_none_iff]
      intro inner hinner
      exact hheader (trim inner) ⟨inner, hinner, rfl⟩
    obtain ⟨htake, hdrop⟩ := splitAtEquals_iff.mpr ⟨hline, hbefore⟩
    simp only [Line.ofChars, if_neg hcomment, hbetween, htake, hdrop, unquotes_iff.mp hvalue]

theorem IsEntry.unique {key' value' : List Char} (h : IsEntry line key value)
    (h' : IsEntry line key' value') : key = key' ∧ value = value' := by
  have heq := (ofChars_eq_entry_iff.mpr h).symm.trans (ofChars_eq_entry_iff.mpr h')
  cases heq
  exact ⟨rfl, rfl⟩

theorem parseBool?_eq_some_iff {b : Bool} : parseBool? value = some b ↔ MeansBool value b := by
  have hwords : parseBool? value =
      if String.ofList (lower (trim value)) ∈ boolWords true then some true
      else if String.ofList (lower (trim value)) ∈ boolWords false then some false else none := rfl
  have hapart : ∀ word ∈ boolWords true, word ∉ boolWords false := by decide
  rw [hwords, MeansBool]
  cases b with
  | true => split <;> simp_all
  | false =>
    split
    next h => simp [hapart _ h]
    next => split <;> simp_all

/-- A line of a longer list is one of the list in front, or the line that was added. -/
theorem append_singleton_cases {below : List (List Char)} {x : List Char}
    (h : texts ++ [line] = above ++ x :: below) :
    (∃ before, below = before ++ [line] ∧ texts = above ++ x :: before) ∨
      (texts = above ∧ line = x) := by
  rcases List.eq_nil_or_concat below with rfl | ⟨before, last, rfl⟩
  · exact Or.inr (List.append_singleton_inj.mp h)
  · rw [List.concat_eq_append, ← List.cons_append, ← List.append_assoc,
      List.append_singleton_inj] at h
    exact Or.inl ⟨before, by simp [h.2], h.1⟩

section LastTold

variable {α : Type} {tells : List (List Char) → List Char → α → Prop} {last last' : Option α}

theorem LastTold.concat_tells {a : α} (h : tells texts line a) :
    LastTold tells (texts ++ [line]) (some a) :=
  .told rfl h (by simp)

theorem LastTold.concat_silent (h : LastTold tells texts last) (hline : ∀ a, ¬tells texts line a) :
    LastTold tells (texts ++ [line]) last := by
  cases h with
  | silent hall =>
    refine .silent ?_
    intro above x below a heq
    rcases append_singleton_cases heq with ⟨before, -, hbefore⟩ | ⟨rfl, rfl⟩
    · exact hall above x before a hbefore
    · exact hline a
  | @told above x below a htexts htells hlater =>
    have hlonger : texts ++ [line] = above ++ x :: (below ++ [line]) := by simp [htexts]
    refine .told hlonger htells ?_
    intro between later rest a' heq
    rcases append_singleton_cases heq with ⟨before, -, hbefore⟩ | ⟨rfl, rfl⟩
    · exact hlater between later before a' hbefore
    · rw [← htexts]
      exact hline a'

theorem length_le_of_told {above' below below' : List (List Char)} {line' : List Char} {a' : α}
    (heq : above ++ line :: below = above' ++ line' :: below') (htells : tells above' line' a')
    (hlater : ∀ between later rest a', below = between ++ later :: rest →
      ¬tells (above ++ line :: between) later a') : above'.length ≤ above.length := by
  rcases List.append_eq_append_iff.mp heq with ⟨between, rfl, hrest⟩ | ⟨between, rfl, -⟩
  · cases between with
    | nil => simp
    | cons x between =>
      obtain ⟨rfl, rfl⟩ := List.cons.inj hrest
      exact absurd htells (hlater between line' below' a' rfl)
  · simp

theorem LastTold.unique
    (hfunctional : ∀ above line a a', tells above line a → tells above line a' → a = a')
    (h : LastTold tells texts last) (h' : LastTold tells texts last') : last = last' := by
  cases h with
  | silent hall =>
    cases h' with
    | silent => rfl
    | told htexts htells => exact absurd htells (hall _ _ _ _ htexts)
  | told htexts htells hlater =>
    cases h' with
    | silent hall => exact absurd htells (hall _ _ _ _ htexts)
    | told htexts' htells' hlater' =>
      have heq := htexts.symm.trans htexts'
      have hle := length_le_of_told heq htells' hlater
      have hge := length_le_of_told heq.symm htells hlater'
      obtain ⟨rfl, hline⟩ := List.append_inj heq (by omega)
      obtain ⟨rfl, -⟩ := List.cons.inj hline
      rw [hfunctional _ _ _ _ htells htells']

end LastTold

theorem inSection_concat_header (h : IsHeader line title) :
    InSection (above ++ [line]) ↔ title = "generate".toList := by
  constructor
  · rintro ⟨earlier, header, between, heq, hheader, hbetween⟩
    rcases append_singleton_cases heq with ⟨before, rfl, -⟩ | ⟨-, rfl⟩
    · exact absurd h (hbetween line (by simp) title)
    · exact h.unique hheader
  · rintro rfl
    exact ⟨above, line, [], rfl, h, by simp⟩

theorem inSection_concat_other (h : ∀ title, ¬IsHeader line title) :
    InSection (above ++ [line]) ↔ InSection above := by
  constructor
  · rintro ⟨earlier, header, between, heq, hheader, hbetween⟩
    rcases append_singleton_cases heq with ⟨before, rfl, rfl⟩ | ⟨-, rfl⟩
    · exact ⟨earlier, header, before, rfl, hheader, fun x hx => hbetween x (by simp [hx])⟩
    · exact absurd hheader (h _)
  · rintro ⟨earlier, header, between, rfl, hheader, hbetween⟩
    refine ⟨earlier, header, between ++ [line], by simp, hheader, ?_⟩
    intro x hx
    rcases List.mem_append.mp hx with hx | hx
    · exact hbetween x hx
    · rw [List.mem_singleton.mp hx]
      exact h

variable {s s' : Settings}

theorem declaredBy_nil : DeclaredBy {} [] where
  clearCell := ⟨none, .silent (by simp), rfl⟩
  placeholder := .silent (by simp)

/-- A line that is no entry that counts changes nothing. -/
theorem DeclaredBy.concat_silent (h : s.DeclaredBy texts)
    (hline : InSection texts → ∀ key value, ¬IsEntry line key value) :
    s.DeclaredBy (texts ++ [line]) := by
  have hsilent {α : Type} (key : String) (means : List Char → α → Prop) (a : α) :
      ¬Tells key means texts line a := by
    rintro ⟨hsection, value, hentry, -⟩
    exact hline hsection key.toList value hentry
  obtain ⟨⟨last, hlast, hclear⟩, hplaceholder⟩ := h
  exact ⟨⟨last, hlast.concat_silent (hsilent _ _), hclear⟩,
    hplaceholder.concat_silent (hsilent _ _)⟩

theorem tells_iff_of_entry {α : Type} {name : String} {means : List Char → α → Prop} {a : α}
    (hsection : InSection texts) (hentry : IsEntry line key value) :
    Tells name means texts line a ↔ key = name.toList ∧ means value a := by
  constructor
  · rintro ⟨-, value', hentry', hmeans⟩
    obtain ⟨rfl, rfl⟩ := hentry.unique hentry'
    exact ⟨rfl, hmeans⟩
  · rintro ⟨rfl, hmeans⟩
    exact ⟨hsection, value, hentry, hmeans⟩

theorem DeclaredBy.concat_entry (h : s.DeclaredBy texts) (hsection : InSection texts)
    (hentry : IsEntry line key value) : (s.set key value).DeclaredBy (texts ++ [line]) := by
  obtain ⟨⟨last, hlast, hclear⟩, hplaceholder⟩ := h
  have hother {α : Type} {name : String} {means : List Char → α → Prop} {told : Option α}
      (hname : key ≠ name.toList) (htold : LastTold (Tells name means) texts told) :
      LastTold (Tells name means) (texts ++ [line]) told := by
    refine htold.concat_silent (fun a htells => ?_)
    exact hname ((tells_iff_of_entry hsection hentry).mp htells).1
  rw [set]
  split
  next hkey =>
    have hplaceholder := hother (by rw [hkey]; decide) hplaceholder
    cases hb : parseBool? value with
    | some b =>
      have htells := (tells_iff_of_entry hsection hentry).mpr
        ⟨hkey, parseBool?_eq_some_iff.mp hb⟩
      exact ⟨⟨some b, .concat_tells htells, rfl⟩, hplaceholder⟩
    | none =>
      refine ⟨⟨last, hlast.concat_silent (fun b htells => ?_), hclear⟩, hplaceholder⟩
      have hmeans := ((tells_iff_of_entry hsection hentry).mp htells).2
      rw [← parseBool?_eq_some_iff, hb] at hmeans
      cases hmeans
  next hkey =>
    have hlast := hother hkey hlast
    split
    next hkey =>
      have htext : MeansText value (String.ofList value) := String.toList_ofList
      have htells := (tells_iff_of_entry hsection hentry).mpr ⟨hkey, htext⟩
      exact ⟨⟨last, hlast, hclear⟩, .concat_tells htells⟩
    next hkey => exact ⟨⟨last, hlast, hclear⟩, hother hkey hplaceholder⟩

/-- One pass over the lines keeps what they declare, along with whether the next entry counts. -/
theorem declaredBy_ofLines {counting : Bool} (h : s.DeclaredBy above)
    (hcounting : counting = true ↔ InSection above) (texts : List (List Char)) :
    (ofLines s counting (texts.map Line.ofChars)).DeclaredBy (above ++ texts) := by
  induction texts generalizing above s counting with
  | nil => simpa [ofLines] using h
  | cons line texts ih =>
    rw [List.map_cons, List.append_cons]
    cases hline : Line.ofChars line with
    | header title =>
      have hheader := ofChars_eq_header_iff.mp hline
      refine ih (h.concat_silent (fun _ key value hentry => ?_)) ?_
      · exact hentry.2.1 title hheader
      · rw [decide_eq_true_iff, inSection_concat_header hheader]
    | entry key value =>
      have hentry := ofChars_eq_entry_iff.mp hline
      refine ih ?_ (hcounting.trans (inSection_concat_other hentry.2.1).symm)
      split
      next hc => exact h.concat_entry (hcounting.mp hc) hentry
      next hc => exact h.concat_silent (fun hsection => absurd (hcounting.mpr hsection) hc)
    | ignored =>
      have hheader : ∀ title, ¬IsHeader line title := by
        intro title hheader
        cases hline.symm.trans (ofChars_eq_header_iff.mpr hheader)
      refine ih (h.concat_silent (fun _ key value hentry => ?_))
        (hcounting.trans (inSection_concat_other hheader).symm)
      cases hline.symm.trans (ofChars_eq_entry_iff.mpr hentry)

theorem tells_functional {α : Type} {name : String} {means : List Char → α → Prop}
    (hmeans : ∀ value a a', means value a → means value a' → a = a') (above : List (List Char))
    (line : List Char) (a a' : α) (h : Tells name means above line a)
    (h' : Tells name means above line a') : a = a' := by
  obtain ⟨hsection, value, hentry, hvalue⟩ := h
  exact hmeans value a a' hvalue ((tells_iff_of_entry hsection hentry).mp h').2

theorem DeclaredBy.unique (h : s.DeclaredBy texts) (h' : s'.DeclaredBy texts) : s = s' := by
  obtain ⟨⟨last, hlast, hclear⟩, hplaceholder⟩ := h
  obtain ⟨⟨last', hlast', hclear'⟩, hplaceholder'⟩ := h'
  have hbool : ∀ value b b', MeansBool value b → MeansBool value b' → b = b' := by
    intro value b b' hb hb'
    rw [← parseBool?_eq_some_iff] at hb hb'
    exact Option.some.inj (hb.symm.trans hb')
  have htext : ∀ value text text', MeansText value text → MeansText value text' → text = text' :=
    fun value text text' ht ht' => String.toList_injective (ht.trans ht'.symm)
  have hclearCell : s.clearCell = s'.clearCell := by
    rw [hclear, hclear', hlast.unique (tells_functional hbool) hlast']
  obtain ⟨clear, placeholder⟩ := s
  obtain ⟨clear', placeholder'⟩ := s'
  cases hclearCell
  cases hplaceholder.unique (tells_functional htext) hplaceholder'
  rfl

theorem declaredBy_parse {content : String} (h : Splits content.toList texts) :
    (parse content).DeclaredBy texts := by
  have hnone : false = true ↔ InSection [] := by simp [InSection]
  rw [parse, h.lines_eq]
  exact declaredBy_ofLines declaredBy_nil hnone texts

/-- The settings that are read from a file are the ones that its lines declare. -/
theorem settings_read_as_declared (content : String) (s : Settings) :
    parse content = s ↔ ∃ texts, Splits content.toList texts ∧ s.DeclaredBy texts := by
  constructor
  · rintro rfl
    exact ⟨_, splits_lines content.toList, declaredBy_parse (splits_lines content.toList)⟩
  · rintro ⟨texts, hsplits, hdeclared⟩
    exact (declaredBy_parse hsplits).unique hdeclared

example : parse
    "[generate]\nclear_cell = \" Yes\"\r\n[x] = [y]\n[z]\n[ generate ]\nclear_cell = maybe\n" =
      ⟨true, none⟩ := by
  decide

end Settings

end TapeScribe
