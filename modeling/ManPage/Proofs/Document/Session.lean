import ManPage.Document.Convert

/-! The steps of a document. A run of a page takes one step for each line that it reads itself; a
session is a sequence of steps that all succeed, each of any line in front of any page. -/

namespace ManPage.Document

variable {options : Options} {state after : State} {input rest : Input} {line : Text}

/-! ### What a run does -/

theorem run_exhausted (h : input.next = (.ok none, rest)) :
    run options state input = { failure := none, state, input := rest } := by
  rw [run]
  split <;> simp_all

theorem run_fault {error : ReadError} (h : input.next = (.error error, rest)) :
    run options state input = { failure := some error, state, input := rest } := by
  rw [run]
  split <;> simp_all

/-- The turn of a line in front of a page. -/
def turnOf (options : Options) (state : State) (line : Text) (rest : Input) : Turn :=
  { line, number := rest.line, step := step options state line rest }

theorem run_ok {output : Option Text} (h : input.next = (.ok (some line), rest))
    (ok : (step options state line rest).output = .ok output) :
    run options state input =
      (run options (step options state line rest).state
        (step options state line rest).input).after (turnOf options state line rest) := by
  rw [run]
  split
  · rename_i eq
    rw [h] at eq
    cases eq
    dsimp only
    rw [ok]
    rfl
  all_goals simp_all

theorem run_error {error : ReadError} (h : input.next = (.ok (some line), rest))
    (failed : (step options state line rest).output = .error error) :
    run options state input =
      { turns := [turnOf options state line rest], failure := some error,
        state := (step options state line rest).state,
        input := (step options state line rest).input } := by
  rw [run]
  split
  · rename_i eq
    rw [h] at eq
    cases eq
    dsimp only
    rw [failed]
    rfl
  all_goals simp_all

theorem result_convert (options : Options) (input : Input) :
    (convert options input).result =
      (run options {} input).failure.elim (.ok (run options {} input).state.problems) .error := by
  unfold convert
  cases failed : (run options {} input).failure with
  | none =>
    simp only [failed]
    rfl
  | some error => simp only [failed, Option.elim_some]

/-- Induction over the lines that a run reads itself. -/
theorem run_induction (options : Options) {motive : State → Input → Prop}
    (exhausted : ∀ state input rest, input.next = (.ok none, rest) → motive state input)
    (fault : ∀ state input error rest, input.next = (.error error, rest) → motive state input)
    (ok : ∀ state input line rest output, input.next = (.ok (some line), rest) →
      (step options state line rest).output = .ok output →
      motive (step options state line rest).state (step options state line rest).input →
      motive state input)
    (error : ∀ state input line rest error, input.next = (.ok (some line), rest) →
      (step options state line rest).output = .error error → motive state input)
    (state : State) (input : Input) : motive state input := by
  induction hn : input.unread.length using Nat.strongRecOn generalizing state input with
  | ind n ih =>
    subst hn
    rcases h : input.next with ⟨error' | _ | line, rest⟩
    · exact fault state input error' rest h
    · exact exhausted state input rest h
    · cases hs : (step options state line rest).output with
      | error error' => exact error state input line rest error' h hs
      | ok output =>
        -- A step gives no lines back, so each turn leaves fewer lines unread.
        refine ok state input line rest output h hs (ih _ ?_ _ _ rfl)
        have shorter := Input.next_unread_length h
        have suffix := (step_unread_suffix options state line rest).length_le
        omega

/-! ### Sessions -/

/-- A document takes steps that all succeed, from one state to another. -/
inductive Session (options : Options) : State → List Turn → State → Prop
  | nil (state : State) : Session options state [] state
  | cons {state after : State} {line : Text} {rest : Input} {output : Option Text}
      {turns : List Turn} (ok : (step options state line rest).output = .ok output)
      (later : Session options (step options state line rest).state turns after) :
      Session options state (turnOf options state line rest :: turns) after

/-- A run that does not fail is a session. -/
theorem run_session (options : Options) (state : State) (input : Input) :
    (run options state input).failure = none →
      Session options state (run options state input).turns (run options state input).state := by
  induction state, input using run_induction options with
  | exhausted state input rest h =>
    intro _
    rw [run_exhausted h]
    exact .nil state
  | fault state input error rest h =>
    intro success
    rw [run_fault h] at success
    simp at success
  | ok state input line rest output h hs ih =>
    rw [run_ok h hs]
    intro success
    exact .cons hs (ih success)
  | error state input line rest error h hs =>
    intro success
    rw [run_error h hs] at success
    simp at success

/-- Each turn of a run is a step of the document in some state. -/
theorem turns_of_run (options : Options) (state : State) (input : Input) :
    ∀ turn ∈ (run options state input).turns,
      ∃ before line rest, turn = turnOf options before line rest := by
  induction state, input using run_induction options with
  | exhausted state input rest h => simp [run_exhausted h]
  | fault state input error rest h => simp [run_fault h]
  | ok state input line rest output h hs ih =>
    rw [run_ok h hs]
    intro turn mem
    rcases List.mem_cons.mp mem with rfl | mem
    · exact ⟨state, line, rest, rfl⟩
    · exact ih turn mem
  | error state input line rest error h hs =>
    rw [run_error h hs]
    intro turn mem
    rw [List.mem_singleton.mp mem]
    exact ⟨state, line, rest, rfl⟩

/-- An invariant of the steps that succeed holds behind a session. -/
theorem Session.invariant {turns : List Turn} {motive : State → Prop}
    (session : Session options state turns after)
    (preserved : ∀ state line rest output, motive state →
      (step options state line rest).output = .ok output →
      motive (step options state line rest).state)
    (start : motive state) : motive after := by
  induction session with
  | nil state => exact start
  | cons ok later ih => exact ih (preserved _ _ _ _ start ok)

theorem Session.of_cons {turn : Turn} {turns : List Turn}
    (session : Session options state (turn :: turns) after) :
    (∃ line rest output, turn = turnOf options state line rest ∧ turn.step.output = .ok output) ∧
      Session options turn.step.state turns after := by
  cases session with
  | cons ok later => exact ⟨⟨_, _, _, rfl, ok⟩, later⟩

theorem Session.of_append {first second : List Turn}
    (session : Session options state (first ++ second) after) :
    ∃ between, Session options state first between ∧ Session options between second after := by
  induction first generalizing state with
  | nil => exact ⟨state, .nil state, session⟩
  | cons turn first ih =>
    obtain ⟨⟨line, rest, output, rfl, ok⟩, later⟩ := Session.of_cons session
    obtain ⟨between, front, back⟩ := ih later
    exact ⟨between, .cons ok front, back⟩

/-- The turns of a session tell where it ends. -/
theorem Session.unique {turns : List Turn} {other : State}
    (session : Session options state turns after) (session' : Session options state turns other) :
    after = other := by
  induction session with
  | nil state =>
    cases session'
    rfl
  | cons ok later ih => exact ih (Session.of_cons session').2

/-! ### The page without front matter -/

def asksForTitle (line : Text) : Bool :=
  match Line.classify line with
  | .request name _ => Request.ofName? name == some .title
  | _ => false

def Turn.isFrontMatter (options : Options) (turn : Turn) : Bool :=
  options.mode == .jekyll && asksForTitle turn.line

/-- What a line put out, unless it is front matter. -/
def Turn.html? (options : Options) (turn : Turn) : Option Text :=
  if turn.isFrontMatter options then none else turn.output?

/-- What stands behind the output of the lines: nothing where a line could not be read. -/
def Run.tail? (run : Run) : Option Text :=
  if run.failure = none then run.state.finish.1 else none

/-- The output of a run without front matter, in pieces. -/
def Run.htmlChunks (options : Options) (run : Run) : List Text :=
  run.turns.filterMap (Turn.html? options) ++ run.tail?.toList

/-- Pieces of output, each of which ends a line. -/
def joinLines (chunks : List Text) : Text :=
  chunks.flatMap (· ++ ['\n'])

theorem joinLines_cons (chunk : Text) (chunks : List Text) :
    joinLines (chunk :: chunks) = chunk ++ ['\n'] ++ joinLines chunks :=
  List.flatMap_cons

theorem joinLines_append (first second : List Text) :
    joinLines (first ++ second) = joinLines first ++ joinLines second :=
  List.flatMap_append

theorem joinLines_filterMap_cons {α : Type} (piece : α → Option Text) (turn : α) (turns : List α) :
    joinLines ((turn :: turns).filterMap piece) =
      joinLines (piece turn).toList ++ joinLines (turns.filterMap piece) := by
  rw [← joinLines_append]
  cases h : piece turn <;> simp [h]

/-- A conversion puts out what the lines put out, and what stands behind them. -/
theorem convert_chunks (options : Options) (input : Input) :
    (convert options input).chunks =
      (run options {} input).turns.filterMap Turn.output? ++
        (run options {} input).tail?.toList := by
  unfold convert Run.tail?
  cases failed : (run options {} input).failure with
  | none =>
    simp only [failed, if_true]
    rfl
  | some error =>
    simp only [failed, Option.some_ne_none, if_false, Option.toList_none, List.append_nil]
    rfl

end ManPage.Document
