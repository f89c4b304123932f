import TapeScribe.Proofs.RequestArguments

namespace TapeScribe

namespace Stop

def kind : Stop → StopKind
  | count _ => .count
  | delimiter _ => .delimiter

/-- A stop as an argument gives it. -/
def written : Stop → String
  | count n => toString n
  | delimiter d => String.singleton (Char.ofNat d.toNat)

/-- The stops that an argument can give. -/
def IsGiven : Stop → Prop
  | count n => n ≤ 1000000
  | delimiter d => d.toNat < 128

end Stop

namespace Request

/-- The requests that arguments can make. -/
def IsNormal : Request → Prop
  | print _ _ => True
  | read stop echo leadIn => stop.IsGiven ∧ (echo = false → leadIn = "")

def mode : Request → Mode
  | print layout _ => .print layout
  | read stop echo _ => .read stop.kind echo

/-- The fields of a request one by one, but for a lead-in that has no echo to come before. -/
def arguments : Request → List String
  | print _ text => [text]
  | read stop echo leadIn => stop.written :: if echo then [leadIn] else []

end Request

theorem Numeral.trim_eq {s : List Char} {n : Nat} (h : Numeral s n) : trim s = s := by
  have hblank : ∀ c ∈ s, isBlank c = false := by
    intro c hc
    have hcode := h.code_of_mem hc
    simp only [isBlank, Bool.or_eq_false_iff, Bool.and_eq_false_iff, decide_eq_false_iff_not,
      beq_eq_false_iff_ne]
    omega
  apply Trimmed.trim_eq
  exact ⟨fun c hc => hblank c (List.mem_of_head? hc), fun c hc => hblank c (List.mem_of_getLast? hc)⟩

namespace Stop

variable {kind : StopKind} {arguments : List String} {stop : Stop}

theorem isGiven_of_classifies (h : kind.Classifies arguments (.ok stop)) : stop.IsGiven := by
  cases h with
  | count _ hle => exact hle
  | delimiter _ hascii hcode => exact hcode.trans_lt hascii

theorem IsGiven.classifies_written (h : stop.IsGiven) (words : List String) :
    stop.kind.Classifies (stop.written :: words) (.ok stop) := by
  cases stop with
  | count n =>
    have hnumeral : Numeral (Nat.toDigits 10 n) n := numeral_zeros_toDigits 0 n
    refine .count ?_ h
    rw [written, Nat.toString_eq_repr, Nat.toList_repr]
    rwa [hnumeral.trim_eq]
  | delimiter d =>
    have hascii : d.toNat < 128 := h
    have hcode : (Char.ofNat d.toNat).toNat = d.toNat := by
      rw [Char.ofNat, dif_pos (Or.inl (by omega))]
      rfl
    exact .delimiter (by simp [written]) (hcode.trans_lt hascii) hcode.symm

end Stop

namespace Request

variable {request : Request} {mode : Mode} {arguments : List String}

theorem joinWords_singleton (word : String) : joinWords [word] = word := rfl

theorem isNormal_of_parse (h : parse mode arguments = .ok request) : request.IsNormal := by
  cases mode with
  | print layout =>
    cases h
    trivial
  | read kind echo =>
    obtain ⟨outcome, hclassifies, hrequest⟩ := parse_read_eq_iff.mp h
    cases outcome with
    | error e => cases hrequest
    | ok stop =>
      cases hrequest
      refine ⟨Stop.isGiven_of_classifies hclassifies, ?_⟩
      intro hecho
      rcases arguments with _ | ⟨first, _ | ⟨second, words⟩⟩
      · rfl
      · rfl
      · simp at hecho

theorem IsNormal.parse_arguments (h : request.IsNormal) :
    parse request.mode request.arguments = .ok request := by
  cases request with
  | print layout text => rfl
  | read stop echo leadIn =>
    obtain ⟨hstop, hleadIn⟩ := h
    refine parse_read_eq_iff.mpr ⟨.ok stop, hstop.classifies_written _, ?_⟩
    cases echo with
    | true => rfl
    | false =>
      rw [hleadIn rfl]
      rfl

theorem parse_print_joinWords (layout : Layout) (words : List String) :
    parse (.print layout) [joinWords words] = parse (.print layout) words := rfl

theorem parse_read_joinWords (kind : StopKind) (echo : Bool) (first : String)
    {words : List String} (h : words ≠ []) :
    parse (.read kind echo) [first, joinWords words] = parse (.read kind echo) (first :: words) := by
  have hreading : reading echo [first, joinWords words] = reading echo (first :: words) := by
    obtain ⟨second, more, rfl⟩ := List.exists_cons_of_ne_nil h
    funext stop
    simp [reading, joinWords_singleton]
  rw [parse_read_cons, parse_read_cons, hreading]

theorem parse_read_echo (kind : StopKind) (h : 2 ≤ arguments.length) :
    parse (.read kind true) arguments = parse (.read kind false) arguments := by
  cases arguments with
  | nil => simp at h
  | cons first words =>
    have hreading : reading true (first :: words) = reading false (first :: words) := by
      funext stop
      have hmore : 0 < words.length := Nat.lt_of_succ_lt_succ h
      simp [reading, hmore]
    rw [parse_read_cons, parse_read_cons, hreading]

theorem parse_read_singleton (kind : StopKind) (echo : Bool) (first : String) :
    parse (.read kind echo) [first] = (kind.parse first).map fun stop => .read stop echo "" := by
  have hreading : reading echo [first] = fun stop => .read stop echo "" := by
    funext stop
    cases echo <;> rfl
  rw [parse_read_cons, hreading]

end Request

/-- Arguments give the requests of normal form, each from its own fields; joining words before
changes nothing. -/
theorem parsed_requests_are_normal :
    (∀ request : Request,
      (∃ mode arguments, Request.parse mode arguments = .ok request) ↔ request.IsNormal) ∧
    (∀ request : Request, request.IsNormal →
      Request.parse request.mode request.arguments = .ok request) ∧
    (∀ (layout : Layout) (words : List String),
      Request.parse (.print layout) [Request.joinWords words] =
        Request.parse (.print layout) words) ∧
    (∀ (kind : StopKind) (echo : Bool) (first : String) (words : List String), words ≠ [] →
      Request.parse (.read kind echo) [first, Request.joinWords words] =
        Request.parse (.read kind echo) (first :: words)) ∧
    (∀ (kind : StopKind) (arguments : List String), 2 ≤ arguments.length →
      Request.parse (.read kind true) arguments = Request.parse (.read kind false) arguments) ∧
    ∀ (kind : StopKind) (first : String), ∃ outcome : Except ArgumentError Stop, ∀ echo,
      Request.parse (.read kind echo) [first] = outcome.map fun stop => .read stop echo "" := by
  refine ⟨?_, fun _ h => h.parse_arguments, Request.parse_print_joinWords,
    fun kind echo first _ h => Request.parse_read_joinWords kind echo first h,
    fun kind _ h => Request.parse_read_echo kind h,
    fun kind first => ⟨_, fun echo => Request.parse_read_singleton kind echo first⟩⟩
  intro request
  constructor
  · rintro ⟨mode, arguments, h⟩
    exact Request.isNormal_of_parse h
  · exact fun h => ⟨_, _, h.parse_arguments⟩

/-- An empty lead-in asks for the echo as any other. -/
theorem parsed_requests_are_normal_with_empty_leadIn :
    (Request.read (.delimiter 32) true "").IsNormal ∧
    Request.parse (.read .delimiter true) [" ", ""] = .ok (.read (.delimiter 32) true "") ∧
    ["", "a b", ""] ≠ [] ∧
    Request.parse (.read .count false) ["007", " a b "] =
      Request.parse (.read .count false) ["007", "", "a b", ""] ∧
    2 ≤ [" ", ""].length ∧
    Request.parse (.read .delimiter true) [" ", ""] =
      Request.parse (.read .delimiter false) [" ", ""] := by
  obtain ⟨-, hback, -, hjoin, hecho, -⟩ := parsed_requests_are_normal
  have hnormal : (Request.read (.delimiter 32) true "").IsNormal :=
    ⟨show (32 : UInt8).toNat < 128 by decide, by simp⟩
  have hwords : ["", "a b", ""] ≠ [] := by simp
  have hlength : 2 ≤ [" ", ""].length := Nat.le_refl 2
  exact ⟨hnormal, hback _ hnormal, hwords, hjoin .count false "007" _ hwords, hlength,
    hecho .delimiter _ hlength⟩

end TapeScribe
