import ManPage.Proofs.Document.Session
import ManPage.Proofs.Reading

/-! What a run takes from a page. A step is a reader: what it puts out and what it makes of the
document depend on the lines that it takes. So a run ends at the first line that cannot be read, and
up to there it comes out as in front of any other lines. -/

namespace ManPage.Document

/-- What a step comes to, without the notes. -/
def Step.outcome (step : Step) : Except ReadError (Option Text × State) × Input :=
  (step.output.map fun output => (output, step.state), step.input)

theorem Step.outcome_eq_ok {step : Step} {output : Option Text} {state : State} {input : Input} :
    step.outcome = (.ok (output, state), input) ↔
      step.output = .ok output ∧ step.state = state ∧ step.input = input := by
  unfold outcome
  cases step.output <;> simp [Except.map, and_assoc]

/-- A step that reads no further line, whatever stands behind its line. -/
theorem reads_of_emit {step : Input → Step} (output : Input → Option Text) (state : Input → State)
    (eq : ∀ input, (step input).outcome = (.ok (output input, state input), input))
    (same : ∀ input unread, output (input.withUnread unread) = output input ∧
      state (input.withUnread unread) = state input) : Reads fun input => (step input).outcome := by
  have outcome : (fun input => (step input).outcome) =
      fun input => (.ok (output input, state input), input) := funext eq
  rw [outcome]
  refine .pure fun input unread => ?_
  rw [(same input unread).1, (same input unread).2]

theorem ofRead_reads {read : Input → Read (Option Text)} (state : State)
    (reads : Reads fun input => (read input).outcome) :
    Reads fun input => (ofRead state (read input)).outcome :=
  reads.map (fun output => (output, state)) fun _ => rfl

theorem paragraphBreak_reads (state : State) :
    Reads fun input => (paragraphBreak state input).outcome :=
  reads_of_emit _ _ (fun _ => rfl) fun _ _ => ⟨rfl, rfl⟩

theorem report_reads (state : State) (cause : Cause) (output : Option Text) :
    Reads fun input => (state.report input cause output).outcome :=
  reads_of_emit _ _ (fun _ => rfl) fun _ _ => ⟨rfl, rfl⟩

theorem heading_reads (level : HeadingLevel) (state : State) (args : List Text) :
    Reads fun input => (heading level state args input).outcome := by
  let emit (text : Text) : Option Text × State :=
    let html := Inline.render text
    (some (state.nesting.closeRegion.1 ++
        renderHeading level (state.anchors.register html).1 html),
      { state with
        nesting := state.nesting.closeRegion.2
        anchors := (state.anchors.register html).2 })
  refine (readText_reads args).map (fun text? => text?.elim (none, state) emit) fun input => ?_
  unfold heading
  rcases h : (readText args input).value with error | _ | text <;>
    simp [emit, h, Read.outcome, Step.outcome, Except.map]

theorem entry_reads (region : Region) (before after : Text) (state : State) :
    Reads fun input => (entry region before after state input).outcome := by
  refine readEntry_reads.map (fun html => (some ((state.nesting.enterEntry region).1 ++ before ++
    html.getD [] ++ after), { state with nesting := (state.nesting.enterEntry region).2 }))
    fun input => ?_
  unfold entry
  cases h : (readEntry input).value <;> simp [h, Read.outcome, Step.outcome, Except.map]

theorem indentedParagraph_reads (state : State) (args : List Text) :
    Reads fun input => (indentedParagraph state args input).outcome := by
  unfold indentedParagraph
  split
  · exact entry_reads .bullets _ _ state
  · exact paragraphBreak_reads state

theorem marginDecrease_reads (state : State) :
    Reads fun input => (marginDecrease state input).outcome := by
  unfold marginDecrease
  dsimp only
  split
  · exact report_reads _ _ _
  · exact reads_of_emit _ _ (fun _ => rfl) fun _ _ => ⟨rfl, rfl⟩

theorem perform_reads (options : Options) (state : State) (request : Request) (name : Text)
    (args : List Text) :
    Reads fun input => (perform options state request name args input).outcome := by
  cases request with
  | heading level => exact heading_reads level state args
  | indentedParagraph => exact indentedParagraph_reads state args
  | marginDecrease => exact marginDecrease_reads state
  | term => exact entry_reads .definitions _ _ state
  | paragraph => exact paragraphBreak_reads state
  | font font => exact ofRead_reads state (readFont_reads font args)
  | skippedBlock => exact ofRead_reads state skipBlock_reads
  | table =>
    refine Table.read_reads.map (fun html => (some html, state)) fun input => ?_
    cases h : (Table.read input).value <;>
      simp [perform, h, Read.outcome, Step.outcome, Except.map]
  | _ => exact reads_of_emit _ _ (fun _ => rfl) fun _ _ => ⟨rfl, rfl⟩

theorem step_reads (options : Options) (state : State) (line : Text) :
    Reads fun input => (step options state line input).outcome := by
  unfold step
  split
  · exact paragraphBreak_reads state
  · exact reads_of_emit _ _ (fun _ => rfl) fun _ _ => ⟨rfl, rfl⟩
  · exact reads_of_emit _ _ (fun _ => rfl) fun _ _ => ⟨rfl, rfl⟩
  · exact reads_of_emit _ _ (fun _ => rfl) fun _ _ => ⟨rfl, rfl⟩
  · unfold dispatch
    split
    · exact perform_reads options state _ _ _
    · exact report_reads state _ none

/-! ### Runs -/

variable {options : Options} {state : State} {input rest : Input} {line : Text}
  {output : Option Text}

/-- A turn that succeeds takes its line and those that it reads ahead, and does the same in front of
other lines behind them. -/
theorem turn_took (h : input.next = (.ok (some line), rest))
    (ok : (step options state line rest).output = .ok output) :
    let behind := (step options state line rest).input
    ∃ used, Took input used behind.unread behind ∧ (behind.unread ≠ [] → ∀ other, ∃ rest',
      (input.withUnread (used.map .text ++ other)).next = (.ok (some line), rest') ∧
      (step options state line rest').output = .ok output ∧
      (step options state line rest').state = (step options state line rest).state ∧
      (step options state line rest').input = behind.withUnread other) := by
  intro behind
  obtain ⟨first, tookFirst, sameFirst⟩ := Input.next_reads.success h
  obtain ⟨second, tookSecond, sameSecond⟩ := (step_reads options state line).success
    (Step.outcome_eq_ok.mpr ⟨ok, rfl, rfl⟩)
  refine ⟨_, tookFirst.trans tookSecond, fun more other => ?_⟩
  -- Behind the step, and so behind its line, some line is still unread.
  have moreFirst : rest.unread ≠ [] := by
    rw [tookSecond.unread]
    exact List.append_ne_nil_of_right_ne_nil _ more
  refine ⟨_, ?_, Step.outcome_eq_ok.mp (sameSecond more other)⟩
  rw [List.map_append, List.append_assoc]
  exact sameFirst moreFirst (second.map .text ++ other)

/-- A run that succeeds took every line of the page. -/
theorem run_of_success (options : Options) (state : State) (input : Input) :
    (run options state input).failure = none →
      ∃ used, Took input used [] (run options state input).input ∧
        (run options state input).input.unread = [] := by
  induction state, input using run_induction options with
  | exhausted state input rest h =>
    intro _
    obtain ⟨used, took, -⟩ := Input.next_reads.success h
    have done : rest.unread = [] := by
      unfold Input.next at h
      split at h
      · rename_i unread
        simp only [Prod.mk.injEq] at h
        rw [← h.2, unread]
      · simp at h
      · simp at h
    rw [run_exhausted h]
    exact ⟨used, done ▸ took, done⟩
  | fault state input error rest h =>
    intro success
    rw [run_fault h] at success
    simp at success
  | error state input line rest error h hs =>
    intro success
    rw [run_error h hs] at success
    simp at success
  | ok state input line rest output h hs ih =>
    rw [run_ok h hs]
    intro success
    obtain ⟨used, took, done⟩ := ih success
    obtain ⟨first, tookFirst, -⟩ := turn_took h hs
    exact ⟨_, tookFirst.trans took, done⟩

/-- A run that fails took the lines up to the first that cannot be read, and put out the start of
what it puts out where other lines follow them. -/
theorem run_of_failure (options : Options) (state : State) (input : Input) {error : ReadError} :
    (run options state input).failure = some error →
      ∃ used, Took input used (.fault error :: (run options state input).input.unread)
          (run options state input).input ∧
        ∀ other, (run options state input).chunks <+:
          (run options state (input.withUnread (used.map .text ++ other))).chunks := by
  induction state, input using run_induction options with
  | exhausted state input rest h =>
    intro failed
    rw [run_exhausted h] at failed
    simp at failed
  | fault state input error' rest h =>
    rw [run_fault h]
    intro failed
    obtain rfl : error' = error := Option.some.inj failed
    obtain ⟨used, took⟩ := Input.next_reads.failure h
    exact ⟨used, took, fun other => List.nil_prefix⟩
  | error state input line rest error' h hs =>
    rw [run_error h hs]
    intro failed
    obtain rfl : error' = error := Option.some.inj failed
    obtain ⟨first, tookFirst, -⟩ := Input.next_reads.success h
    obtain ⟨second, tookSecond⟩ := (step_reads options state line).failure
      (show (step options state line rest).outcome = (.error error', _) by
        rw [Step.outcome, hs]
        rfl)
    refine ⟨_, tookFirst.trans tookSecond, fun other => ?_⟩
    have silent : Turn.output? (turnOf options state line rest) = none := by
      rw [Turn.output?, turnOf]
      dsimp only
      rw [hs]
    rw [Run.chunks, List.filterMap_cons_none silent]
    exact List.nil_prefix
  | ok state input line rest output h hs ih =>
    rw [run_ok h hs]
    intro failed
    obtain ⟨used, took, same⟩ := ih failed
    obtain ⟨first, tookFirst, sameFirst⟩ := turn_took h hs
    refine ⟨_, tookFirst.trans took, fun other => ?_⟩
    -- Behind the turn the line that cannot be read is still unread.
    have more : (step options state line rest).input.unread ≠ [] := by
      rw [took.unread]
      simp
    obtain ⟨rest', next, hs', state', input'⟩ := sameFirst more (used.map .text ++ other)
    have samePiece : (turnOf options state line rest').output? =
        (turnOf options state line rest).output? := by
      simp only [Turn.output?, turnOf, hs, hs']
    rw [List.map_append, List.append_assoc, run_ok next hs', state', input']
    simp only [Run.chunks, Run.after, List.filterMap_cons, samePiece]
    cases (turnOf options state line rest).output? with
    | none => exact same other
    | some piece => exact List.cons_prefix_cons.mpr ⟨rfl, same other⟩

end ManPage.Document
