import Mathlib.Data.List.Forall2
import ManPage.Proofs.Document.Effect
import ManPage.Proofs.Document.Reading

/-! Runs that agree. What lines do depends neither on how many lines stand before them nor on the
problems so far, and only the title depends on the options. So two runs of the same lines, from
documents with the same nesting and anchors, go through the same steps, and their problems differ
in line numbers only. -/

namespace ManPage

/-! ### Reading behind more lines -/

/-- The page behind `k` more lines. -/
def Input.moved (input : Input) (k : Nat) : Input :=
  { input with line := input.line + k }

/-- A reader that does not look at how many lines were read. -/
def Uniform {α : Type} (reader : Reader α) : Prop :=
  ∀ input k, reader (input.moved k) = ((reader input).1, (reader input).2.moved k)

namespace Input

theorem next_uniform : Uniform next := by
  intro input k
  obtain ⟨name, line, unread⟩ := input
  rcases unread with _ | ⟨raw, rest⟩
  · rfl
  · cases raw with
    | fault error => rfl
    | text text => simp only [next, moved, Nat.add_right_comm]

theorem line_of_next {input rest : Input} {line : Text}
    (h : input.next = (.ok (some line), rest)) : rest.line = input.line + 1 := by
  unfold next at h
  split at h
  · simp at h
  · cases h
    rfl
  · simp at h

theorem takeBlock_moved (stop : Text → Bool) (input : Input) (k : Nat) :
    (input.moved k).takeBlock stop =
      ((input.takeBlock stop).1, (input.takeBlock stop).2.moved k) := by
  simp only [takeBlock, moved, Nat.add_right_comm]

end Input

namespace Table

theorem Format.read_uniform : Uniform fun input => (Format.read input).outcome := by
  intro input k
  unfold Format.read
  simp only [Input.takeBlock_moved]
  cases (input.takeBlock isLast).1.ending <;> rfl

theorem readBody_uniform (format : Format) :
    Uniform fun input => (readBody format input).outcome := by
  intro input k
  unfold readBody
  simp only [Input.takeBlock_moved]
  cases (input.takeBlock isEnd).1.ending <;> rfl

theorem read_uniform : Uniform fun input => (read input).outcome := by
  intro input k
  have header := Format.read_uniform input k
  unfold read
  cases front : Format.read input with
  | mk value rest notes =>
    cases front' : Format.read (input.moved k) with
    | mk value' rest' notes' =>
      obtain ⟨rfl, rfl⟩ : value' = value ∧ rest' = rest.moved k := by
        simpa [front, front', Read.outcome] using header
      dsimp only
      rw [front, front']
      cases value' with
      | error error => rfl
      | ok format => exact readBody_uniform format rest k

end Table

namespace Document

theorem readText_uniform (args : List Text) :
    Uniform fun input => (readText args input).outcome := by
  intro input k
  unfold readText
  dsimp only
  split
  · rw [Input.next_uniform]
    rfl
  · rfl

theorem readFont_uniform (font : Font) (args : List Text) :
    Uniform fun input => (readFont font args input).outcome := by
  intro input k
  obtain ⟨value, moved⟩ : (readText args (input.moved k)).value = (readText args input).value ∧
      (readText args (input.moved k)).input = (readText args input).input.moved k :=
    Prod.mk.inj (readText_uniform args input k)
  unfold readFont
  dsimp only
  rcases h : (readText args input).value with error | _ | text
  all_goals
    rw [h] at value
    simp [Read.outcome, value, h, moved]

theorem readEntry_uniform : Uniform fun input => (readEntry input).outcome := by
  intro input k
  unfold readEntry
  dsimp only
  rw [Input.next_uniform]
  rcases input.next with ⟨error | _ | line, rest⟩
  · rfl
  · rfl
  · dsimp only
    unfold entryOfLine
    split
    · exact readFont_uniform _ _ rest k
    · rfl
    · rfl

theorem skipBlock_uniform : Uniform fun input => (skipBlock input).outcome := by
  intro input k
  unfold skipBlock
  simp only [Input.takeBlock_moved]
  cases (input.takeBlock endsSkippedBlock).1.ending <;> rfl

namespace Effect

theorem ofOutcome_uniform {α : Type} {reader : Reader α} (uniform : Uniform reader)
    (entered : Option Region) (effect : α → Effect) (input : Input) (k : Nat) :
    ofOutcome entered effect (reader (input.moved k)) =
      ((ofOutcome entered effect (reader input)).1,
        (ofOutcome entered effect (reader input)).2.moved k) := by
  rw [uniform]
  rcases reader input with ⟨error | value, rest⟩ <;> rfl

theorem ofRequest_moved (request : Request) (args : List Text) (input : Input) (k : Nat) :
    ofRequest request args (input.moved k) =
      ((ofRequest request args input).1, (ofRequest request args input).2.moved k) := by
  cases request with
  | heading level => exact ofOutcome_uniform (readText_uniform args) _ _ input k
  | indentedParagraph =>
    unfold ofRequest
    dsimp only
    split
    · exact ofOutcome_uniform readEntry_uniform _ _ input k
    · rfl
  | term => exact ofOutcome_uniform readEntry_uniform _ _ input k
  | font font => exact ofOutcome_uniform (readFont_uniform font args) _ _ input k
  | skippedBlock => exact ofOutcome_uniform skipBlock_uniform _ _ input k
  | table => exact ofOutcome_uniform Table.read_uniform _ _ input k
  | _ => rfl

/-- A line has its effect however many lines stand before it. -/
theorem ofLine_moved (line : Text) (input : Input) (k : Nat) :
    ofLine line (input.moved k) = ((ofLine line input).1, (ofLine line input).2.moved k) := by
  unfold ofLine
  cases Line.classify line with
  | request name args =>
    dsimp only
    cases Request.ofName? name with
    | some request => exact ofRequest_moved request args input k
    | none => rfl
  | _ => rfl

end Effect

/-! ### Agreement -/

/-- Documents in which the lines to come do the same; `move` gives the problems of the second by
those of the first. -/
structure State.Agrees (move : Problem → Problem) (first second : State) : Prop where
  nesting : second.nesting = first.nesting
  anchors : second.anchors = first.anchors
  problems : second.problems = first.problems.map move

/-- Turns of the same line, the second behind `k` more lines. Under other options only a line that
asks for the title can put out something else. -/
structure Turn.Agrees (options options' : Options) (move : Problem → Problem) (k : Nat)
    (first second : Turn) : Prop where
  line : second.line = first.line
  number : second.number = first.number + k
  state : first.step.state.Agrees move second.step.state
  output : options = options' ∨ asksForTitle first.line = false →
    second.step.output = first.step.output

variable {options options' : Options} {move : Problem → Problem} {first second : State}

theorem Effect.apply_agrees {effect : Effect} {place place' : Input}
    (agrees : first.Agrees move second)
    (moves : ∀ cause, move { source := place.name, line := place.line, cause } =
      { source := place'.name, line := place'.line, cause }) :
    (effect.apply options place first).Agrees move (effect.apply options' place' second) := by
  refine ⟨congrArg effect.nesting agrees.nesting, congrArg effect.anchors agrees.anchors, ?_⟩
  unfold apply
  dsimp only
  rw [agrees.problems, agrees.nesting, List.map_append, List.map_map]
  simp only [Function.comp_def, moves]

theorem Effect.output_options {effect : Effect} (nesting : Nesting) (anchors : Anchors)
    (same : options = options' ∨ ∀ args, effect ≠ .title args) :
    effect.output options' nesting anchors = effect.output options nesting anchors := by
  rcases same with rfl | other
  · rfl
  · cases effect with
    | title args => exact absurd rfl (other args)
    | _ => rfl

theorem turnOf_agrees (line : Text) {rest : Input} {k : Nat} (agrees : first.Agrees move second)
    (moves : ∀ cause, move { source := rest.name, line := rest.line, cause } =
      { source := rest.name, line := rest.line + k, cause }) :
    Turn.Agrees options options' move k (turnOf options first line rest)
      (turnOf options' second line (rest.moved k)) := by
  have does := step_does options first line rest
  have does' := step_does options' second line (rest.moved k)
  rw [Effect.ofLine_moved] at does'
  refine ⟨rfl, rfl, ?_, fun same => ?_⟩
  · show (step options first line rest).state.Agrees move
      (step options' second line (rest.moved k)).state
    rw [does.state, does'.state]
    exact Effect.apply_agrees agrees moves
  · show (step options' second line (rest.moved k)).output = (step options first line rest).output
    rw [does.output, does'.output, agrees.nesting, agrees.anchors]
    refine Effect.output_options _ _ (same.imp_right fun other args title => ?_)
    have asks := ofLine_eq_title_iff.mp ⟨args, title⟩
    rw [show asksForTitle line = false from other] at asks
    cases asks

theorem step_error_iff {line : Text} {input : Input} {error : ReadError} :
    (step options first line input).output = .error error ↔
      ∃ entered, (Effect.ofLine line input).1 = .fault error entered := by
  rw [(step_does options first line input).output, output_eq_error_iff]

theorem step_moved_error {line : Text} {input : Input} {k : Nat} {error : ReadError}
    (failed : (step options first line input).output = .error error) :
    (step options' second line (input.moved k)).output = .error error := by
  rw [step_error_iff] at failed ⊢
  rwa [Effect.ofLine_moved]

theorem step_moved_ok (options' : Options) (second : State) {line : Text} {input : Input} (k : Nat)
    {output : Option Text} (ok : (step options first line input).output = .ok output) :
    ∃ output', (step options' second line (input.moved k)).output = .ok output' := by
  cases outcome : (step options' second line (input.moved k)).output with
  | ok output' => exact ⟨output', rfl⟩
  | error error =>
    rw [step_error_iff, Effect.ofLine_moved, ← step_error_iff, ok] at outcome
    cases outcome

theorem step_moved_input (line : Text) (input : Input) (k : Nat) :
    (step options' second line (input.moved k)).input =
      (step options first line input).input.moved k := by
  rw [(step_does options' second line (input.moved k)).input,
    (step_does options first line input).input, Effect.ofLine_moved]

theorem line_le_step {line : Text} {input : Input} {output : Option Text}
    (ok : (step options first line input).output = .ok output) :
    input.line ≤ (step options first line input).input.line := by
  obtain ⟨used, took, -⟩ := (step_reads options first line).success
    (Step.outcome_eq_ok.mpr ⟨ok, rfl, rfl⟩)
  rw [took.line]
  exact Nat.le_add_right _ _

theorem Turn.Agrees.output? {k : Nat} {turn turn' : Turn}
    (agrees : Turn.Agrees options options' move k turn turn')
    (same : options = options' ∨ asksForTitle turn.line = false) :
    turn'.output? = turn.output? := by
  rw [Turn.output?, Turn.output?, agrees.output same]

theorem any_agrees {k : Nat} {turns turns' : List Turn} (test : Text → Bool)
    (agrees : List.Forall₂ (Turn.Agrees options options' move k) turns turns') :
    turns'.any (test ·.line) = turns.any (test ·.line) := by
  induction agrees with
  | nil => rfl
  | cons turn _ ih => rw [List.any_cons, List.any_cons, turn.line, ih]

theorem chunks_agrees {k : Nat} {ran ran' : Run}
    (agrees : List.Forall₂ (Turn.Agrees options options move k) ran.turns ran'.turns) :
    ran'.chunks = ran.chunks := by
  unfold Run.chunks
  generalize ran.turns = turns at agrees ⊢
  generalize ran'.turns = turns' at agrees ⊢
  induction agrees with
  | nil => rfl
  | cons turn _ ih => rw [List.filterMap_cons, List.filterMap_cons, turn.output? (.inl rfl), ih]

theorem run_agrees {k : Nat} {state : State} {input : Input} (agrees : state.Agrees move second)
    (moves : ∀ problem, input.line < problem.line →
      move problem = { problem with line := problem.line + k }) :
    let ran := run options state input
    let ran' := run options' second (input.moved k)
    List.Forall₂ (Turn.Agrees options options' move k) ran.turns ran'.turns ∧
      ran'.failure = ran.failure ∧ ran'.input = ran.input.moved k ∧
      ran.state.Agrees move ran'.state := by
  induction state, input using run_induction options generalizing second with
  | exhausted state input rest h =>
    have h' : (input.moved k).next = (.ok none, rest.moved k) := by
      rw [Input.next_uniform, h]
    rw [run_exhausted h, run_exhausted h']
    exact ⟨.nil, rfl, rfl, agrees⟩
  | fault state input error rest h =>
    have h' : (input.moved k).next = (.error error, rest.moved k) := by
      rw [Input.next_uniform, h]
    rw [run_fault h, run_fault h']
    exact ⟨.nil, rfl, rfl, agrees⟩
  | error state input line rest error h failed =>
    have h' : (input.moved k).next = (.ok (some line), rest.moved k) := by
      rw [Input.next_uniform, h]
    have later := Input.line_of_next h
    have turn : Turn.Agrees options options' move k (turnOf options state line rest)
        (turnOf options' second line (rest.moved k)) :=
      turnOf_agrees line agrees fun cause => moves ⟨rest.name, rest.line, cause⟩ (by simp [later])
    rw [run_error h failed, run_error h' (step_moved_error failed)]
    exact ⟨.cons turn .nil, rfl, step_moved_input line rest k, turn.state⟩
  | ok state input line rest output h ok ih =>
    have h' : (input.moved k).next = (.ok (some line), rest.moved k) := by
      rw [Input.next_uniform, h]
    have later := Input.line_of_next h
    have ahead := line_le_step ok
    have turn : Turn.Agrees options options' move k (turnOf options state line rest)
        (turnOf options' second line (rest.moved k)) :=
      turnOf_agrees line agrees fun cause => moves ⟨rest.name, rest.line, cause⟩ (by simp [later])
    obtain ⟨output', ok'⟩ := step_moved_ok options' second k ok
    obtain ⟨turns, failure, behind, state'⟩ := ih turn.state fun problem below =>
      moves problem (by omega)
    have same : (step options' second line (rest.moved k)).input =
        (step options state line rest).input.moved k := step_moved_input line rest k
    rw [run_ok h ok, run_ok h' ok', same]
    exact ⟨.cons turn turns, failure, behind, state'⟩

end Document

end ManPage
