import TapeScribe.Machine
import TapeScribe.Program

namespace TapeScribe

namespace Instruction

def ofCode (code : String) : List Instruction :=
  code.toList.filterMap ofSymbol?

/-- All instructions but the two ends of a loop. -/
def IsPlain (i : Instruction) : Prop :=
  i ≠ .loopStart ∧ i ≠ .loopEnd

instance (i : Instruction) : Decidable i.IsPlain :=
  inferInstanceAs (Decidable (i ≠ .loopStart ∧ i ≠ .loopEnd))

def loop (body : List Instruction) : List Instruction :=
  .loopStart :: (body ++ [.loopEnd])

@[simp]
theorem ofCode_append (a b : String) : ofCode (a ++ b) = ofCode a ++ ofCode b := by
  simp [ofCode]

@[simp]
theorem ofCode_repeated (i : Instruction) (n : Nat) :
    ofCode (i.repeated n) = List.replicate n i := by
  rw [ofCode, toList_repeated, List.filterMap_replicate, ofSymbol?_symbol]

theorem loop_append (body rest : List Instruction) :
    loop body ++ rest = .loopStart :: (body ++ .loopEnd :: rest) := by
  simp [loop]

end Instruction

open Instruction

namespace Program

def instructions (p : Program) : List Instruction :=
  ofCode p.text

theorem instructions_append (p q : Program) :
    (p ++ q).instructions = p.instructions ++ q.instructions := by
  rw [instructions, text_append, ofCode_append]
  rfl

theorem instructions_ofList (l : List Segment) :
    (ofList l).instructions = l.flatMap (fun s => ofCode s.code) := by
  rw [instructions, ofCode, toList_text_ofList, List.filterMap_flatMap]
  rfl

end Program

namespace Machine

/-- The search for the end of an outer loop passes over the text. -/
def Balanced (code : List Instruction) : Prop :=
  ∀ depth rest, afterLoop? depth (code ++ rest) = afterLoop? depth rest

theorem balanced_of_plain {code : List Instruction} (h : ∀ i ∈ code, i.IsPlain) :
    Balanced code := by
  intro depth rest
  induction code with
  | nil => rfl
  | cons i code ih =>
    have hi := h i (by simp)
    have hc : afterLoop? depth (i :: (code ++ rest)) = afterLoop? depth (code ++ rest) := by
      cases i with
      | loopStart => exact absurd rfl hi.1
      | loopEnd => exact absurd rfl hi.2
      | _ => cases depth <;> rfl
    exact hc.trans (ih (fun j hj => h j (by simp [hj])))

theorem balanced_replicate {i : Instruction} (hi : i.IsPlain) (n : Nat) :
    Balanced (List.replicate n i) :=
  balanced_of_plain (fun _ hj => List.eq_of_mem_replicate hj ▸ hi)

theorem Balanced.append {a b : List Instruction} (ha : Balanced a) (hb : Balanced b) :
    Balanced (a ++ b) := by
  intro depth rest
  rw [List.append_assoc, ha, hb]

theorem Balanced.loop {body : List Instruction} (hb : Balanced body) :
    Balanced (Instruction.loop body) := by
  intro depth rest
  rw [loop_append]
  exact hb (depth + 1) (.loopEnd :: rest)

/-- A run on which each instruction is allowed in the state where it is carried out. -/
inductive Path (modulus : Nat) (allowed : Instruction → State → Prop) : Machine → Machine → Prop
  | refl (m) : Path modulus allowed m m
  | step {a b c i} : a.todo.head? = some i → allowed i a.state → a.step modulus = .ok b →
      Path modulus allowed b c → Path modulus allowed a c

variable {modulus : Nat} {allowed : Instruction → State → Prop}

theorem Path.trans {a b c : Machine} (h : Path modulus allowed a b)
    (g : Path modulus allowed b c) : Path modulus allowed a c := by
  induction h with
  | refl => exact g
  | step hi ha hs _ ih => exact .step hi ha hs (ih g)

theorem Path.reaches {a b : Machine} (h : Path modulus allowed a b) : Reaches modulus a b := by
  induction h with
  | refl m => exact .refl m
  | step _ _ hs _ ih => exact (Reaches.step (.refl _) hs).trans ih

theorem Path.first_step {a b c : Machine} (h : Path modulus allowed a c) (hne : a ≠ c)
    (hs : a.step modulus = .ok b) : Path modulus allowed b c := by
  cases h with
  | refl => exact absurd rfl hne
  | step _ _ hs' h =>
    cases hs.symm.trans hs'
    exact h

theorem Reaches.head_cases {a c : Machine} (h : Reaches modulus a c) :
    a = c ∨ ∃ b, a.step modulus = .ok b ∧ Reaches modulus b c := by
  induction h with
  | refl => exact .inl rfl
  | step _ hs ih =>
    rcases ih with rfl | ⟨b, hb, hr⟩
    · exact .inr ⟨_, hs, .refl _⟩
    · exact .inr ⟨b, hb, hr.step hs⟩

/-- Every machine that is reached from the start of a path is watched on it, or comes after it. -/
theorem Path.allowed_or_reaches {a b m : Machine} (h : Path modulus allowed a b)
    (g : Reaches modulus a m) :
    (∃ i, m.todo.head? = some i ∧ allowed i m.state) ∨ Reaches modulus b m := by
  induction h with
  | refl => exact Or.inr g
  | step hi ha hs _ ih =>
    rcases g.head_cases with rfl | ⟨next, hn, hr⟩
    · exact Or.inl ⟨_, hi, ha⟩
    · cases hs.symm.trans hn
      exact ih hr

/-- A run that stops goes through every machine that is reached, to the same end. -/
theorem Reaches.stops {a b final : Machine} {why : Halt} (h : Reaches modulus a b)
    (g : Stops modulus a final why) : Stops modulus b final why := by
  induction h with
  | refl => exact g
  | step _ hs ih =>
    obtain ⟨hr, hw⟩ := ih
    rcases hr.head_cases with rfl | ⟨c, hc, hr⟩
    · cases hs.symm.trans hw
    · cases hs.symm.trans hc
      exact ⟨hr, hw⟩

theorem Stops.unique {a b c : Machine} {why why' : Halt} (h : Stops modulus a b why)
    (g : Stops modulus a c why') : b = c ∧ why = why' := by
  obtain ⟨hr, hw⟩ := h.1.stops g
  rcases hr.head_cases with rfl | ⟨_, hs, _⟩
  · cases h.2.symm.trans hw
    exact ⟨rfl, rfl⟩
  · cases h.2.symm.trans hs

theorem step_plain {i : Instruction} (hi : i.IsPlain) (rest : List Instruction)
    (loops : List (List Instruction)) (s : State) :
    step modulus ⟨i :: rest, loops, s⟩ =
      (s.perform modulus i).map fun state => ⟨rest, loops, state⟩ := by
  cases i with
  | loopStart => exact absurd rfl hi.1
  | loopEnd => exact absurd rfl hi.2
  | _ => rfl

theorem step_loop_zero {body : List Instruction} (hb : Balanced body) {s : State}
    (h : s.cell = 0) (rest : List Instruction) (loops : List (List Instruction)) :
    step modulus ⟨loop body ++ rest, loops, s⟩ = .ok ⟨rest, loops, s⟩ := by
  have he : afterLoop? 0 (body ++ .loopEnd :: rest) = some rest := hb 0 (.loopEnd :: rest)
  simp [loop_append, step, h, he]

theorem step_loop_nonzero (body : List Instruction) {s : State} (h : s.cell ≠ 0)
    (rest : List Instruction) (loops : List (List Instruction)) :
    step modulus ⟨loop body ++ rest, loops, s⟩ =
      .ok ⟨body ++ .loopEnd :: rest, (body ++ .loopEnd :: rest) :: loops, s⟩ := by
  simp [loop_append, step, h]

theorem exists_step_loop (modulus : Nat) {body : List Instruction} (hb : Balanced body) (s : State)
    (rest : List Instruction) (loops : List (List Instruction)) :
    ∃ next, step modulus ⟨loop body ++ rest, loops, s⟩ = .ok next := by
  by_cases h : s.cell = 0
  · exact ⟨_, step_loop_zero hb h rest loops⟩
  · exact ⟨_, step_loop_nonzero body h rest loops⟩

/-- The end of a loop does what its start would do, were the machine to go back there. -/
theorem step_loopEnd {body : List Instruction} (hb : Balanced body) (s : State)
    (rest : List Instruction) (loops : List (List Instruction)) :
    step modulus ⟨.loopEnd :: rest, (body ++ .loopEnd :: rest) :: loops, s⟩ =
      step modulus ⟨loop body ++ rest, loops, s⟩ := by
  by_cases h : s.cell = 0
  · rw [step_loop_zero hb h]
    simp [step, h]
  · rw [step_loop_nonzero body h]
    simp [step, h]

end Machine

variable {modulus : Nat} {allowed : Instruction → State → Prop}

/-- The text turns one state into another, whatever stands behind it and around it. -/
def Runs (modulus : Nat) (allowed : Instruction → State → Prop) (code : List Instruction)
    (s t : State) : Prop :=
  ∀ rest loops, Machine.Path modulus allowed ⟨code ++ rest, loops, s⟩ ⟨rest, loops, t⟩

/-- The text gets to a state where it waits for input that does not come. -/
def Blocks (modulus : Nat) (allowed : Instruction → State → Prop) (code : List Instruction)
    (s t : State) : Prop :=
  ∀ rest loops, ∃ m, Machine.Path modulus allowed ⟨code ++ rest, loops, s⟩ m ∧
    m.state = t ∧ m.step modulus = .error .blocked

theorem Runs.nil (s : State) : Runs modulus allowed [] s s :=
  fun _ _ => .refl _

theorem Runs.append {a b : List Instruction} {s t u : State} (h : Runs modulus allowed a s t)
    (g : Runs modulus allowed b t u) : Runs modulus allowed (a ++ b) s u := by
  intro rest loops
  rw [List.append_assoc]
  exact (h (b ++ rest) loops).trans (g rest loops)

theorem Runs.single {i : Instruction} {s t : State} (hi : i.IsPlain) (ha : allowed i s)
    (h : s.perform modulus i = .ok t) : Runs modulus allowed [i] s t := by
  intro rest loops
  have hs : Machine.step modulus ⟨i :: rest, loops, s⟩ = .ok ⟨rest, loops, t⟩ := by
    rw [Machine.step_plain hi, h]
    rfl
  exact .step rfl ha hs (.refl _)

theorem Runs.cons {i : Instruction} {code : List Instruction} {s t u : State}
    (h : Runs modulus allowed [i] s t) (g : Runs modulus allowed code t u) :
    Runs modulus allowed (i :: code) s u :=
  h.append g

theorem Runs.loop_skip {body : List Instruction} {s : State} (hb : Machine.Balanced body)
    (ha : allowed .loopStart s) (h : s.cell = 0) : Runs modulus allowed (loop body) s s := by
  intro rest loops
  exact .step rfl ha (Machine.step_loop_zero hb h rest loops) (.refl _)

theorem Runs.loop_pass {body : List Instruction} {s t : State} {m : Machine}
    (hb : Machine.Balanced body) (hs : allowed .loopStart s) (ht : allowed .loopEnd t)
    (h : s.cell ≠ 0) (hr : Runs modulus allowed body s t) {rest : List Instruction}
    {loops : List (List Instruction)} (hne : (⟨loop body ++ rest, loops, t⟩ : Machine) ≠ m)
    (hm : Machine.Path modulus allowed ⟨loop body ++ rest, loops, t⟩ m) :
    Machine.Path modulus allowed ⟨loop body ++ rest, loops, s⟩ m := by
  obtain ⟨next, hn⟩ := Machine.exists_step_loop modulus hb t rest loops
  have hend := (Machine.step_loopEnd hb t rest loops).trans hn
  have hpass := hr (.loopEnd :: rest) ((body ++ .loopEnd :: rest) :: loops)
  exact .step rfl hs (Machine.step_loop_nonzero body h rest loops)
    (hpass.trans (.step rfl ht hend (hm.first_step hne hn)))

theorem Runs.loop_again {body : List Instruction} {s t u : State} (hb : Machine.Balanced body)
    (hs : allowed .loopStart s) (ht : allowed .loopEnd t) (h : s.cell ≠ 0)
    (hr : Runs modulus allowed body s t) (hl : Runs modulus allowed (loop body) t u) :
    Runs modulus allowed (loop body) s u := by
  intro rest loops
  refine Runs.loop_pass hb hs ht h hr ?_ (hl rest loops)
  intro he
  have hlen := congrArg (fun m => m.todo.length) he
  simp [loop] at hlen
  omega

/-- A loop that is no more than a condition: its body ends on a cell that holds 0. -/
theorem Runs.loop_once {body : List Instruction} {s t : State} (hb : Machine.Balanced body)
    (hs : allowed .loopStart s) (ht : ∀ i, allowed i t) (h : s.cell ≠ 0)
    (hr : Runs modulus allowed body s t) (h0 : t.cell = 0) :
    Runs modulus allowed (loop body) s t :=
  .loop_again hb hs (ht _) h hr (.loop_skip hb (ht _) h0)

theorem Runs.blocks {a b : List Instruction} {s t u : State} (h : Runs modulus allowed a s t)
    (g : Blocks modulus allowed b t u) : Blocks modulus allowed (a ++ b) s u := by
  intro rest loops
  obtain ⟨m, hm, hstate, hstop⟩ := g rest loops
  rw [List.append_assoc]
  exact ⟨m, (h (b ++ rest) loops).trans hm, hstate, hstop⟩

theorem Blocks.append {a : List Instruction} {s t : State} (h : Blocks modulus allowed a s t)
    (b : List Instruction) : Blocks modulus allowed (a ++ b) s t := by
  intro rest loops
  rw [List.append_assoc]
  exact h (b ++ rest) loops

theorem Blocks.input {s : State} (h : s.input = []) : Blocks modulus allowed [.input] s s := by
  intro rest loops
  refine ⟨_, .refl _, rfl, ?_⟩
  simp [Machine.step, State.perform, h, Except.map]

theorem Blocks.loop_enter {body : List Instruction} {s u : State} (hs : allowed .loopStart s)
    (h : s.cell ≠ 0) (hb : Blocks modulus allowed body s u) :
    Blocks modulus allowed (loop body) s u := by
  intro rest loops
  obtain ⟨m, hm, hstate, hstop⟩ := hb (.loopEnd :: rest) ((body ++ .loopEnd :: rest) :: loops)
  exact ⟨m, .step rfl hs (Machine.step_loop_nonzero body h rest loops) hm, hstate, hstop⟩

theorem Blocks.loop_again {body : List Instruction} {s t u : State} (hb : Machine.Balanced body)
    (hs : allowed .loopStart s) (ht : allowed .loopEnd t) (h : s.cell ≠ 0)
    (hr : Runs modulus allowed body s t) (hl : Blocks modulus allowed (loop body) t u) :
    Blocks modulus allowed (loop body) s u := by
  intro rest loops
  obtain ⟨m, hm, hstate, hstop⟩ := hl rest loops
  refine ⟨m, Runs.loop_pass hb hs ht h hr ?_ hm, hstate, hstop⟩
  rintro rfl
  obtain ⟨next, hn⟩ := Machine.exists_step_loop modulus hb t rest loops
  cases hn.symm.trans hstop

/-- Any number of whole passes of a loop. -/
inductive Passes (modulus : Nat) (allowed : Instruction → State → Prop) (body : List Instruction) :
    State → State → Prop
  | refl (s) : Passes modulus allowed body s s
  | step {s t u} : allowed .loopStart s → allowed .loopEnd t → s.cell ≠ 0 →
      Runs modulus allowed body s t → Passes modulus allowed body t u →
      Passes modulus allowed body s u

theorem Passes.runs {body : List Instruction} {s t u : State} (hb : Machine.Balanced body)
    (h : Passes modulus allowed body s t) (g : Runs modulus allowed (loop body) t u) :
    Runs modulus allowed (loop body) s u := by
  induction h with
  | refl => exact g
  | step hs ht h0 hr _ ih => exact .loop_again hb hs ht h0 hr (ih g)

theorem Passes.blocks {body : List Instruction} {s t u : State} (hb : Machine.Balanced body)
    (h : Passes modulus allowed body s t) (g : Blocks modulus allowed (loop body) t u) :
    Blocks modulus allowed (loop body) s u := by
  induction h with
  | refl => exact g
  | step hs ht h0 hr _ ih => exact .loop_again hb hs ht h0 hr (ih g)

/-- On an empty tape with cells of the given size the program ends, or waits, in the given state. -/
def Program.StopsOn (modulus : Nat) (p : Program) (input : List UInt8) (why : Halt) (t : State) :
    Prop :=
  ∃ final, (Machine.load p.text (.fresh input)).Stops modulus final why ∧ final.state = t

theorem Program.StopsOn.unique {p : Program} {input : List UInt8} {why why' : Halt} {t t' : State}
    (h : p.StopsOn modulus input why t) (g : p.StopsOn modulus input why' t') :
    why = why' ∧ t = t' := by
  obtain ⟨final, hf, rfl⟩ := h
  obtain ⟨final', hf', rfl⟩ := g
  obtain ⟨rfl, rfl⟩ := hf.unique hf'
  exact ⟨rfl, rfl⟩

/-- The same on cells of one byte. -/
def Program.StopsWith (p : Program) (input : List UInt8) (why : Halt) (t : State) : Prop :=
  p.StopsOn 256 input why t

theorem Runs.path_load {p : Program} {s t : State} (h : Runs modulus allowed p.instructions s t) :
    Machine.Path modulus allowed (Machine.load p.text s) ⟨[], [], t⟩ := by
  have hp := h [] []
  rwa [List.append_nil] at hp

theorem Runs.stops {p : Program} {s t : State} (h : Runs modulus allowed p.instructions s t) :
    (Machine.load p.text s).Stops modulus ⟨[], [], t⟩ .finished :=
  ⟨h.path_load.reaches, rfl⟩

theorem Runs.stopsOn {p : Program} {input : List UInt8} {t : State}
    (h : Runs modulus allowed p.instructions (.fresh input) t) :
    p.StopsOn modulus input .finished t :=
  ⟨_, h.stops, rfl⟩

/-- Every instruction that is carried out in the run of a program is watched. -/
theorem Runs.allowed_or_ends {p : Program} {s t : State} {m : Machine}
    (h : Runs modulus allowed p.instructions s t)
    (hm : Machine.Reaches modulus (Machine.load p.text s) m) :
    (∃ i, m.todo.head? = some i ∧ allowed i m.state) ∨ m = ⟨[], [], t⟩ := by
  rcases h.path_load.allowed_or_reaches hm with hi | hafter
  · exact Or.inl hi
  · rcases hafter.head_cases with rfl | ⟨_, hs, _⟩
    · exact Or.inr rfl
    · cases hs

theorem Runs.allowed_of_head {p : Program} {s t : State} {m : Machine} {i : Instruction}
    (h : Runs modulus allowed p.instructions s t)
    (hm : Machine.Reaches modulus (Machine.load p.text s) m) (hi : m.todo.head? = some i) :
    allowed i m.state := by
  rcases h.allowed_or_ends hm with ⟨j, hj, ha⟩ | rfl
  · cases hi.symm.trans hj
    exact ha
  · cases hi

theorem Blocks.stopsOn {p : Program} {input : List UInt8} {t : State}
    (h : Blocks modulus allowed p.instructions (.fresh input) t) :
    p.StopsOn modulus input .blocked t := by
  obtain ⟨m, hm, hstate, hstop⟩ := h [] []
  rw [List.append_nil] at hm
  exact ⟨m, ⟨hm.reaches, hstop⟩, hstate⟩

end TapeScribe
