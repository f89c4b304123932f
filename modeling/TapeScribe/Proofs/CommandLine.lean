import TapeScribe.Invocation
import TapeScribe.Proofs.ArgumentForm

namespace TapeScribe

theorem exists_of_bind_eq_ok {ε α β : Type} {x : Except ε α} {f : α → Except ε β} {b : β}
    (h : x.bind f = .ok b) : ∃ a, x = .ok a ∧ f a = .ok b := by
  cases x with
  | error e => cases h
  | ok a => exact ⟨a, rfl, h⟩

/-- The options that a command line gives, each placeholder with its value, and then its words, from
the first that is no option or behind a mark. -/
inductive Written : List (List UInt8) → List OptionUse → List (List UInt8) → Prop
  | nil : Written [] [] []
  | words {a rest} : Argument.IsWord a → Written (a :: rest) [] (a :: rest)
  | mark {a words} : a = Utf8.encode "--" → Written (a :: words) [] words
  | options {a uses rest more words} : Argument.Gives a uses → .placeholder none ∉ uses →
      Written rest more words → Written (a :: rest) (uses ++ more) words
  | value {a uses v rest more words} : Argument.Gives a (uses ++ [.placeholder none]) →
      .placeholder none ∉ uses → Argument.IsWord v → Written rest more words →
      Written (a :: v :: rest) (uses ++ .placeholder (some v) :: more) words

theorem Written.unique {arguments : List (List UInt8)} {uses uses' : List OptionUse}
    {words words' : List (List UInt8)} (h : Written arguments uses words)
    (g : Written arguments uses' words') : uses = uses' ∧ words = words' := by
  induction h generalizing uses' words' with
  | nil => cases g; exact ⟨rfl, rfl⟩
  | words ha =>
    cases g with
    | words => exact ⟨rfl, rfl⟩
    | mark ha' => exact absurd ha' ha.1
    | options ha' | value ha' => exact absurd ha' (ha.2 _)
  | mark ha =>
    cases g with
    | words ha' => exact absurd ha ha'.1
    | mark => exact ⟨rfl, rfl⟩
    | options ha' | value ha' => exact absurd ha ha'.ne_mark
  | options ha hclosed _ ih =>
    cases g with
    | words ha' => exact absurd ha (ha'.2 _)
    | mark ha' => exact absurd ha' ha.ne_mark
    | options ha' _ g =>
      obtain rfl := ha.unique ha'
      obtain ⟨rfl, rfl⟩ := ih g
      exact ⟨rfl, rfl⟩
    | value ha' =>
      obtain rfl := ha.unique ha'
      simp at hclosed
  | value ha _ _ _ ih =>
    cases g with
    | words ha' => exact absurd ha (ha'.2 _)
    | mark ha' => exact absurd ha' ha.ne_mark
    | options ha' hclosed' =>
      obtain rfl := ha.unique ha'
      simp at hclosed'
    | value ha' _ _ g =>
      obtain rfl := List.append_cancel_right (ha.unique ha')
      obtain ⟨rfl, rfl⟩ := ih g
      exact ⟨rfl, rfl⟩

theorem Written.closed {arguments : List (List UInt8)} {uses : List OptionUse}
    {words : List (List UInt8)} (h : Written arguments uses words) :
    .placeholder none ∉ uses := by
  induction h with
  | nil | words | mark => simp
  | options _ hclosed _ ih => simp [hclosed, ih]
  | value _ hclosed _ _ ih => simp [hclosed, ih]

namespace Invocation

namespace Progress

variable {s t r : Progress} {u : OptionUse} {uses more : List OptionUse}

theorem store_eq_ok_iff {value : List UInt8} :
    s.store value = .ok t ↔ ∃ text, s.placeholder = none ∧ value = Utf8.encode text ∧
      t = { s with placeholder := some text } := by
  unfold store
  cases hp : s.placeholder with
  | some text => simp
  | none =>
    cases hv : Utf8.decode? value with
    | none => simp [Utf8.decode?_eq_none_iff.mp hv]
    | some text =>
      obtain rfl := Utf8.decode?_eq_some_iff.mp hv
      constructor
      · intro h
        cases h
        exact ⟨text, rfl, rfl, rfl⟩
      · rintro ⟨other, -, he, rfl⟩
        cases Utf8.encode_injective he
        rfl

theorem resolve_of_nothing (h : s.pending = .nothing) : s.resolve = .ok s := by
  rw [resolve, h]

theorem pending_resolve (h : s.resolve = .ok t) : t.pending = .nothing := by
  unfold resolve at h
  split at h
  next hp =>
    cases h
    exact hp
  next => cases h
  next =>
    obtain ⟨text, -, -, rfl⟩ := store_eq_ok_iff.mp h
    rfl

/-- A value that was waited for is stored as if it had been given at once. -/
theorem resolve_holding (h : s.pending = .nothing) (value : List UInt8) :
    { s with pending := .holding value }.resolve = s.store value := by
  cases s
  cases h
  rfl

theorem use_of_resolve (h : s.resolve = .ok r) (u : OptionUse) : r.use u = s.use u := by
  rw [use, use, h, resolve_of_nothing (pending_resolve h)]

/-- What an option does once nothing is pending. -/
theorem use_cases (hs : s.pending = .nothing) (h : s.use u = .ok t) :
    (∃ f, u = .flag f ∧ s.addFlag f = .ok t) ∨
    (u = .placeholder none ∧ t = { s with pending := .awaiting }) ∨
    ∃ value, u = .placeholder (some value) ∧ s.store value = .ok t := by
  rw [use, resolve_of_nothing hs] at h
  cases u with
  | flag f => exact Or.inl ⟨f, rfl, h⟩
  | placeholder value =>
    cases value with
    | none =>
      cases h
      exact Or.inr (Or.inl ⟨rfl, rfl⟩)
    | some value => exact Or.inr (Or.inr ⟨value, rfl, h⟩)

theorem addFlag_eq_ok {f : Flag} (h : s.addFlag f = .ok t) :
    t = { s with flags := f :: s.flags.filter (fun g => f.opposite? ≠ some g) } := by
  unfold addFlag at h
  split at h
  · cases h
  · cases h
    rfl

theorem pending_use (hs : s.pending = .nothing) (hu : u ≠ .placeholder none)
    (h : s.use u = .ok t) : t.pending = .nothing := by
  rcases use_cases hs h with ⟨f, -, hf⟩ | ⟨hopen, -⟩ | ⟨value, -, hv⟩
  · rw [addFlag_eq_ok hf]
    exact hs
  · exact absurd hopen hu
  · obtain ⟨text, -, -, rfl⟩ := store_eq_ok_iff.mp hv
    exact hs

theorem useAll_append (s : Progress) (uses more : List OptionUse) :
    s.useAll (uses ++ more) = (s.useAll uses).bind fun s => s.useAll more := by
  induction uses generalizing s with
  | nil => rfl
  | cons u uses ih =>
    rw [List.cons_append, useAll, useAll]
    cases s.use u with
    | error e => rfl
    | ok t => exact ih t

theorem pending_useAll (hs : s.pending = .nothing) (hclosed : .placeholder none ∉ uses)
    (h : s.useAll uses = .ok t) : t.pending = .nothing := by
  induction uses generalizing s with
  | nil =>
    cases h
    exact hs
  | cons u uses ih =>
    obtain ⟨r, hr, hrest⟩ := exists_of_bind_eq_ok h
    rw [List.mem_cons, not_or] at hclosed
    exact ih (pending_use hs (Ne.symm hclosed.1) hr) hclosed.2 hrest

/-- The options lead from one state to another, once what was pending is settled. -/
def Gets (s : Progress) (uses : List OptionUse) (t : Progress) : Prop :=
  ∃ r, s.resolve = .ok r ∧ r.useAll uses = .ok t

theorem Gets.useAll_eq (hs : s.pending = .nothing) (h : s.Gets uses t) : s.useAll uses = .ok t := by
  obtain ⟨r, hr, huses⟩ := h
  cases (resolve_of_nothing hs).symm.trans hr
  exact huses

/-- Each option settles what is pending before it does anything else. -/
theorem gets_of_useAll (hne : uses ≠ []) (h : s.useAll uses = .ok t) : s.Gets uses t := by
  cases uses with
  | nil => exact absurd rfl hne
  | cons u uses =>
    obtain ⟨p, hp, -⟩ := exists_of_bind_eq_ok h
    obtain ⟨r, hr, -⟩ := exists_of_bind_eq_ok hp
    refine ⟨r, hr, ?_⟩
    rw [useAll, use_of_resolve hr]
    exact h

theorem pending_of_closed (hne : uses ≠ []) (hclosed : .placeholder none ∉ uses)
    (h : s.useAll uses = .ok r) : r.pending = .nothing := by
  obtain ⟨p, hp, hall⟩ := gets_of_useAll hne h
  exact pending_useAll (pending_resolve hp) hclosed hall

theorem exists_of_open {before : List OptionUse}
    (h : s.useAll (before ++ [.placeholder none]) = .ok r) :
    ∃ p q, s.useAll before = .ok p ∧ p.resolve = .ok q ∧ r = { q with pending := .awaiting } := by
  rw [useAll_append] at h
  obtain ⟨p, hp, hlast⟩ := exists_of_bind_eq_ok h
  obtain ⟨r', hr', hdone⟩ := exists_of_bind_eq_ok hlast
  cases hdone
  obtain ⟨q, hq, hopen⟩ := exists_of_bind_eq_ok hr'
  cases hopen
  exact ⟨p, q, hp, hq, rfl⟩

theorem gets_closed (hne : uses ≠ []) (hclosed : .placeholder none ∉ uses)
    (huses : s.useAll uses = .ok r) (h : r.Gets more t) : s.Gets (uses ++ more) t := by
  apply gets_of_useAll (by simp [hne])
  rw [useAll_append, huses]
  exact h.useAll_eq (pending_of_closed hne hclosed huses)

/-- An option that leaves its value to the next argument gets it from there. -/
theorem gets_open {before : List OptionUse} {value : List UInt8}
    (huses : s.useAll (before ++ [.placeholder none]) = .ok r)
    (h : { r with pending := .holding value }.Gets more t) :
    s.Gets (before ++ .placeholder (some value) :: more) t := by
  obtain ⟨p, q, hp, hq, rfl⟩ := exists_of_open huses
  obtain ⟨next, hnext, hmore⟩ := h
  have hstore : q.store value = .ok next := by
    rw [← resolve_holding (pending_resolve hq)]
    exact hnext
  have huse : p.use (.placeholder (some value)) = .ok next := by
    rw [use, hq]
    exact hstore
  apply gets_of_useAll (by simp)
  rw [useAll_append, hp]
  change (p.use _).bind _ = _
  rw [huse]
  exact hmore

theorem not_useAll_of_awaiting (hs : s.pending = .awaiting) (hne : uses ≠ []) :
    s.useAll uses ≠ .ok t := by
  intro h
  obtain ⟨r, hr, -⟩ := gets_of_useAll hne h
  rw [resolve, hs] at hr
  cases hr

theorem not_resolve_of_awaiting (hs : s.pending = .awaiting) : s.resolve ≠ .ok t := by
  rw [resolve, hs]
  intro h
  cases h

/-- A scan that ends has read a command line and used its options one after the other. -/
theorem scan_written {arguments words : List (List UInt8)} {final : Progress}
    (h : s.scan arguments = .ok (t, words)) (ht : t.resolve = .ok final) :
    (s.pending ≠ .awaiting → ∃ uses, Written arguments uses words ∧ s.Gets uses final) ∧
    (s.pending = .awaiting → ∃ value rest uses, arguments = value :: rest ∧
      Argument.IsWord value ∧ Written rest uses words ∧
      { s with pending := .holding value }.Gets uses final) := by
  induction arguments generalizing s with
  | nil =>
    cases h
    exact ⟨fun _ => ⟨[], .nil, final, ht, rfl⟩, fun hs => absurd ht (not_resolve_of_awaiting hs)⟩
  | cons a rest ih =>
    rw [scan] at h
    cases ha : Argument.ofBytes a with
    | endOfOptions =>
      rw [ha] at h
      cases h
      exact ⟨fun _ => ⟨[], .mark (Argument.eq_mark_of_endOfOptions ha), final, ht, rfl⟩,
        fun hs => absurd ht (not_resolve_of_awaiting hs)⟩
    | options uses =>
      rw [ha] at h
      obtain ⟨r, hr, hscan⟩ := exists_of_bind_eq_ok h
      obtain ⟨hgoOn, hwait⟩ := ih hscan
      have hgives := Argument.ofBytes_eq_options_iff.mp ha
      have hne := hgives.ne_nil
      refine ⟨fun _ => ?_, fun hs => absurd hr (not_useAll_of_awaiting hs hne)⟩
      rcases hgives.closed_or_endsOpen with hclosed | ⟨before, hbefore, rfl⟩
      · have hpending := pending_of_closed hne hclosed hr
        obtain ⟨more, hwritten, hgets⟩ := hgoOn (by simp [hpending])
        exact ⟨_, .options hgives hclosed hwritten, gets_closed hne hclosed hr hgets⟩
      · obtain ⟨p, q, -, -, hopen⟩ := exists_of_open hr
        have hpending : r.pending = .awaiting := by rw [hopen]
        obtain ⟨value, rest, more, rfl, hv, hwritten, hgets⟩ := hwait hpending
        exact ⟨_, .value hgives hbefore hv hwritten, gets_open hr hgets⟩
    | flagWithValue f value =>
      rw [ha] at h
      cases h
    | unreadableName name =>
      rw [ha] at h
      cases h
    | plain =>
      have hword := Argument.isWord_of_plain ha
      simp only [ha] at h
      split at h
      next hs =>
        obtain ⟨more, hwritten, hgets⟩ := (ih h).1 (by simp)
        exact ⟨fun hs' => absurd hs hs', fun _ => ⟨a, rest, more, rfl, hword, hwritten, hgets⟩⟩
      next hs =>
        cases h
        exact ⟨fun _ => ⟨[], .words hword, final, ht, rfl⟩, fun hs' => absurd hs' hs⟩

end Progress

end Invocation

/-- What an option says on clearing, if it is about that. -/
def OptionUse.clearing? : OptionUse → Option Bool
  | .flag .clear => some true
  | .flag .noClear => some false
  | _ => none

def OptionUse.value? : OptionUse → Option (List UInt8)
  | .placeholder value => value
  | .flag _ => none

/-- The word of the last option that is about clearing. -/
def lastClearing (uses : List OptionUse) : Option Bool :=
  (uses.filterMap OptionUse.clearing?).getLast?

/-- All values that options give for the placeholder. -/
def givenValues (uses : List OptionUse) : List (List UInt8) :=
  uses.filterMap OptionUse.value?

namespace Invocation

/-- Of the options about clearing the last is kept, and the one value for the placeholder. -/
structure Records (flags : List Flag) (placeholder : Option String) (uses : List OptionUse) :
    Prop where
  clear : .clear ∈ flags ↔ lastClearing uses = some true
  noClear : .noClear ∈ flags ↔ lastClearing uses = some false
  placeholder : givenValues uses = (placeholder.map Utf8.encode).toList

theorem records_nil : Records [] none [] where
  clear := by simp [lastClearing]
  noClear := by simp [lastClearing]
  placeholder := rfl

theorem lastClearing_concat (uses : List OptionUse) (u : OptionUse) :
    lastClearing (uses ++ [u]) = u.clearing?.or (lastClearing uses) := by
  unfold lastClearing
  cases h : u.clearing? <;> simp [h]

theorem givenValues_concat (uses : List OptionUse) (u : OptionUse) :
    givenValues (uses ++ [u]) = givenValues uses ++ u.value?.toList := by
  unfold givenValues
  cases h : u.value? <;> simp [h]

variable {s t : Progress} {u : OptionUse} {uses more : List OptionUse}

theorem Records.addFlag {f : Flag} (hr : Records s.flags s.placeholder uses)
    (h : s.addFlag f = .ok t) : Records t.flags t.placeholder (uses ++ [.flag f]) := by
  obtain rfl := Progress.addFlag_eq_ok h
  have hclear := hr.clear
  have hnoClear := hr.noClear
  refine ⟨?_, ?_, ?_⟩
  · rw [lastClearing_concat]
    cases f <;> simp [OptionUse.clearing?, Flag.opposite?, hclear]
  · rw [lastClearing_concat]
    cases f <;> simp [OptionUse.clearing?, Flag.opposite?, hnoClear]
  · rw [givenValues_concat, hr.placeholder]
    simp [OptionUse.value?]

theorem Records.store {value : List UInt8} (hr : Records s.flags s.placeholder uses)
    (h : s.store value = .ok t) :
    Records t.flags t.placeholder (uses ++ [.placeholder (some value)]) := by
  obtain ⟨text, hnone, rfl, rfl⟩ := Progress.store_eq_ok_iff.mp h
  refine ⟨?_, ?_, ?_⟩
  · rw [lastClearing_concat]
    exact hr.clear
  · rw [lastClearing_concat]
    exact hr.noClear
  · rw [givenValues_concat, hr.placeholder, hnone]
    rfl

theorem Records.use (hr : Records s.flags s.placeholder uses) (hs : s.pending = .nothing)
    (hu : u ≠ .placeholder none) (h : s.use u = .ok t) :
    Records t.flags t.placeholder (uses ++ [u]) := by
  rcases Progress.use_cases hs h with ⟨f, rfl, hf⟩ | ⟨hopen, -⟩ | ⟨value, rfl, hv⟩
  · exact hr.addFlag hf
  · exact absurd hopen hu
  · exact hr.store hv

theorem Records.useAll (hr : Records s.flags s.placeholder uses) (hs : s.pending = .nothing)
    (hclosed : .placeholder none ∉ more) (h : s.useAll more = .ok t) :
    Records t.flags t.placeholder (uses ++ more) := by
  induction more generalizing s uses with
  | nil =>
    cases h
    rwa [List.append_nil]
  | cons u more ih =>
    obtain ⟨r, hu, hrest⟩ := exists_of_bind_eq_ok h
    rw [List.mem_cons, not_or] at hclosed
    have hne := Ne.symm hclosed.1
    have hall := ih (hr.use hs hne hu) (Progress.pending_use hs hne hu) hclosed.2 hrest
    rwa [List.append_assoc] at hall

theorem mapM_decode?_eq_some_iff {words : List (List UInt8)} {texts : List String} :
    words.mapM Utf8.decode? = some texts ↔ words = texts.map Utf8.encode := by
  induction words generalizing texts with
  | nil => cases texts <;> simp
  | cons w words ih =>
    rw [List.mapM_cons]
    constructor
    · intro h
      obtain ⟨text, hw, h⟩ := Option.bind_eq_some_iff.mp h
      obtain ⟨more, hwords, h⟩ := Option.bind_eq_some_iff.mp h
      cases h
      rw [List.map_cons, ← ih.mp hwords, Utf8.decode?_eq_some_iff.mp hw]
    · intro h
      cases texts with
      | nil => cases h
      | cons text more =>
        obtain ⟨hw, hwords⟩ := List.cons.inj h
        rw [Utf8.decode?_eq_some_iff.mpr hw, ih.mpr hwords]
        rfl

/-- An invocation is what a scan leaves, with the last value stored and the words read as text. -/
theorem parse_eq_ok_iff {arguments : List (List UInt8)} {i : Invocation} :
    parse arguments = .ok i ↔
      ∃ s t, Progress.scan {} arguments = .ok (s, i.words.map Utf8.encode) ∧ s.resolve = .ok t ∧
        i.flags = t.flags ∧ i.placeholder = t.placeholder := by
  constructor
  · intro h
    obtain ⟨⟨s, words⟩, hscan, h⟩ := exists_of_bind_eq_ok h
    obtain ⟨t, hresolve, h⟩ := exists_of_bind_eq_ok h
    cases hdecode : words.mapM Utf8.decode? with
    | none =>
      simp only [hdecode] at h
      cases h
    | some texts =>
      simp only [hdecode] at h
      cases h
      rw [mapM_decode?_eq_some_iff.mp hdecode] at hscan
      exact ⟨s, t, hscan, hresolve, rfl, rfl⟩
  · rintro ⟨s, t, hscan, hresolve, hflags, hplaceholder⟩
    have hdecode := mapM_decode?_eq_some_iff.mpr (rfl : i.words.map Utf8.encode = _)
    obtain ⟨flags, placeholder, words⟩ := i
    cases hflags
    cases hplaceholder
    simp only [parse, hscan, Except.bind, hresolve, hdecode]

/-- Whatever is accepted is made up as a command line, and its options are kept. -/
theorem parse_written {arguments : List (List UInt8)} {i : Invocation}
    (h : parse arguments = .ok i) :
    ∃ uses, Written arguments uses (i.words.map Utf8.encode) ∧
      Records i.flags i.placeholder uses := by
  obtain ⟨s, t, hscan, hresolve, hflags, hplaceholder⟩ := parse_eq_ok_iff.mp h
  obtain ⟨uses, hwritten, hgets⟩ := (Progress.scan_written hscan hresolve).1 (by decide)
  have hrecords : Records t.flags t.placeholder ([] ++ uses) :=
    records_nil.useAll (s := {}) rfl hwritten.closed (hgets.useAll_eq rfl)
  rw [hflags, hplaceholder]
  exact ⟨uses, hwritten, hrecords⟩

end Invocation

end TapeScribe
