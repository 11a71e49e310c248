import ManPage.Proofs.Document.Effect

/-! The title of a page. A line that asks for it puts out the head of the page and sets its end,
whatever the document is; no other line has to do with either. So a conversion puts out what the
lines do, the markup that closes the open regions, and the end of the page if some line asked for
the title. -/

namespace ManPage.Document

variable {options : Options} {state : State} {line : Text} {input : Input}

/-! ### Lines -/

def title? (line : Text) : Option Title :=
  match Line.classify line with
  | .request name args =>
    if Request.ofName? name = some .title then some (Title.ofArgs args) else none
  | _ => none

theorem title?_eq_some {title : Title} : title? line = some title ↔
    ∃ name args, Line.classify line = .request name args ∧ Request.ofName? name = some .title ∧
      Title.ofArgs args = title := by
  unfold title?
  cases Line.classify line <;> simp [and_assoc]

theorem isSome_title? (line : Text) : (title? line).isSome = asksForTitle line := by
  unfold title? asksForTitle
  cases Line.classify line with
  | request name args =>
    dsimp only
    by_cases title : Request.ofName? name = some .title
    · rw [if_pos title, title]
      rfl
    · rw [if_neg title, beq_eq_false_iff_ne.mpr title]
      rfl
  | _ => rfl

/-- A line that asks for the title puts out the head of the page. -/
theorem output_of_title {title : Title} (asked : title? line = some title) :
    (step options state line input).output = .ok (title.head? options) := by
  obtain ⟨name, args, request, known, rfl⟩ := title?_eq_some.mp asked
  unfold step
  rw [request]
  dsimp only [dispatch]
  rw [known]
  rfl

/-- A line sets the end of the page if it asks for the title, and leaves it as it is if not. -/
theorem trailer_step (options : Options) (state : State) (line : Text) (input : Input) :
    (step options state line input).state.trailer =
      if asksForTitle line then Title.trailer? options else state.trailer := by
  rw [(step_does options state line input).state]
  show (Effect.ofLine line input).1.trailer options state.trailer = _
  by_cases asks : asksForTitle line
  · obtain ⟨args, title⟩ : ∃ args, (Effect.ofLine line input).1 = .title args :=
      ofLine_eq_title_iff.mpr asks
    rw [title, if_pos asks]
    rfl
  · rw [if_neg asks]
    cases effect : (Effect.ofLine line input).1 with
    | title args => exact absurd (ofLine_eq_title_iff.mp ⟨args, effect⟩) asks
    | _ => rfl

/-! ### Runs -/

def Run.hasTitle (run : Run) : Bool :=
  run.turns.any (asksForTitle ·.line)

theorem output?_of_title {turn : Turn} {title : Title}
    (mem : turn ∈ (run options state input).turns) (asked : title? turn.line = some title) :
    turn.output? = title.head? options := by
  obtain ⟨before, line, rest, rfl⟩ := turns_of_run options state input turn mem
  have written : (step options before line rest).output = .ok (title.head? options) :=
    output_of_title asked
  simp only [Turn.output?, turnOf, written]

theorem run_trailer (options : Options) (state : State) (input : Input) :
    (run options state input).state.trailer =
      if (run options state input).hasTitle then Title.trailer? options else state.trailer := by
  induction state, input using run_induction options with
  | exhausted state input rest h =>
    rw [run_exhausted h]
    rfl
  | fault state input error rest h =>
    rw [run_fault h]
    rfl
  | error state input line rest error h failed =>
    have own := trailer_step options state line rest
    rw [run_error h failed]
    simpa [Run.hasTitle, turnOf] using own
  | ok state input line rest output h ok ih =>
    rw [trailer_step] at ih
    rw [run_ok h ok]
    show (run options (step options state line rest).state
      (step options state line rest).input).state.trailer = _
    rw [ih]
    -- A title further on has the last word.
    cases asks : asksForTitle line <;> simp [Run.hasTitle, Run.after, turnOf, asks]

/-! ### Conversions -/

/-- The markup that closes the regions that are open behind a run: nothing where a line could not
be read. -/
def Run.closing? (run : Run) : Option Text :=
  if run.failure = none then Text.nonempty? run.state.nesting.closeAll.1 else none

/-- The end of the page behind a run: nothing where a line could not be read. -/
def Run.ending? (run : Run) : Option Text :=
  if run.failure = none then run.state.trailer else none

theorem ending?_run (options : Options) (input : Input) :
    (run options {} input).ending? =
      if (run options {} input).failure = none ∧ (run options {} input).hasTitle then
        Title.trailer? options
      else none := by
  rw [Run.ending?, run_trailer]
  by_cases success : (run options {} input).failure = none
  · by_cases title : (run options {} input).hasTitle
    · rw [if_pos success, if_pos title, if_pos ⟨success, title⟩]
    · rw [if_pos success, if_neg title, if_neg fun both => title both.2]
  · rw [if_neg success, if_neg fun both => success both.1]

theorem trailer?_ne_nil (options : Options) : Title.trailer? options ≠ some [] := by
  unfold Title.trailer?
  cases options.mode <;> decide

/-- What stands behind the lines is the markup that closes the open regions and the end of the
page. -/
theorem joinLines_tail? {run : Run} (trailer : run.state.trailer ≠ some []) :
    joinLines run.tail?.toList =
      joinLines run.closing?.toList ++ joinLines run.ending?.toList := by
  unfold Run.tail? Run.closing? Run.ending? State.finish
  dsimp only
  by_cases success : run.failure = none
  · rw [if_pos success, if_pos success, if_pos success]
    cases end_ : run.state.trailer with
    | none => exact (List.append_nil _).symm
    | some html =>
      obtain ⟨c, rest, rfl⟩ := List.exists_cons_of_ne_nil fun empty => trailer (empty ▸ end_)
      cases run.state.nesting.closeAll.1 with
      | nil => rfl
      | cons c' closing => simp [joinLines, Text.nonempty?]
  · rw [if_neg success, if_neg success, if_neg success]
    rfl

/-- The output of a conversion from top to bottom. -/
theorem convert_html (options : Options) (input : Input) :
    (convert options input).html =
      joinLines ((run options {} input).turns.filterMap Turn.output?) ++
        joinLines (run options {} input).closing?.toList ++
        joinLines (run options {} input).ending?.toList := by
  have trailer : (run options {} input).state.trailer ≠ some [] := by
    rw [run_trailer]
    split
    · exact trailer?_ne_nil options
    · intro given
      cases given
  show joinLines (convert options input).chunks = _
  rw [convert_chunks, joinLines_append, joinLines_tail? trailer, List.append_assoc]

theorem input_convert (options : Options) (input : Input) :
    (convert options input).input = (run options {} input).input := by
  unfold convert
  cases failed : (run options {} input).failure <;> simp only [failed]

end ManPage.Document
