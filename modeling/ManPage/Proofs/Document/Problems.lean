import ManPage.Proofs.Document.Agreement
import ManPage.Proofs.Document.Title
import ManPage.Proofs.Document.Markup

/-! The problems of a page. A line is at fault if it makes a request that is not known or decreases
the margin once too often, and it is reported before any line is read ahead. So each problem stands
at a line that a run reads itself, and the problems stand in the order of their lines. -/

namespace ManPage

/-- `problem` is one of `line`, and its message says so: it names the request that is not known, or
the request that decreases the margin. -/
def Line.HasProblem (line : Text) (problem : Problem) : Prop :=
  ∃ request args, classify line = .request request args ∧
    (Request.ofName? request = none ∧ problem.cause = .unknownRequest request ∧
        problem.message = "unknown request `.".toList ++ request ++ "`".toList ∨
      request = "RE".toList ∧ problem.cause = .unmatchedMarginDecrease ∧
        problem.message = "`.RE` without a matching `.RS`".toList)

theorem Request.name_of_marginDecrease {name : Text} (known : ofName? name = some .marginDecrease) :
    name = "RE".toList := by
  obtain ⟨before, after, eq, -⟩ := List.lookup_eq_some_iff.mp known
  have mem : (name, Request.marginDecrease) ∈ names := by
    rw [eq]
    simp
  have only : ∀ entry ∈ names, entry.2 = .marginDecrease → entry.1 = "RE".toList := by decide
  exact only _ mem rfl

namespace Document

variable {options : Options} {state : State} {input rest : Input} {line : Text}
  {nesting : Nesting}

/-! ### Lines -/

namespace Effect

theorem cause?_ofOutcome {α : Type} {entered : Option Region} {effect : α → Effect}
    (fine : ∀ value, (effect value).cause? nesting = none) (outcome : Except ReadError α × Input) :
    (ofOutcome entered effect outcome).1.cause? nesting = none := by
  rcases outcome with ⟨error | value, input⟩
  · rfl
  · exact fine value

theorem cause?_ofPiece (piece : Option Text) : (ofPiece piece).cause? nesting = none := by
  cases piece <;> rfl

/-- Of the requests that are known only a decrease of the margin can be at fault. -/
theorem cause?_ofRequest {request : Request} (other : request ≠ .marginDecrease) (args : List Text)
    (input : Input) : (ofRequest request args input).1.cause? nesting = none := by
  cases request with
  | heading level => exact cause?_ofOutcome (fun text? => by cases text? <;> rfl) _
  | indentedParagraph =>
    unfold ofRequest
    dsimp only
    split
    · exact cause?_ofOutcome (fun _ => rfl) _
    · rfl
  | marginDecrease => exact absurd rfl other
  | term => exact cause?_ofOutcome (fun _ => rfl) _
  | font font => exact cause?_ofOutcome cause?_ofPiece _
  | skippedBlock => exact cause?_ofOutcome cause?_ofPiece _
  | table => exact cause?_ofOutcome (fun _ => rfl) _
  | _ => rfl

theorem hasProblem_of_cause? {problem : Problem}
    (found : (ofLine line input).1.cause? nesting = some problem.cause) :
    Line.HasProblem line problem := by
  unfold ofLine at found
  cases class_ : Line.classify line with
  | request name args =>
    rw [class_] at found
    dsimp only at found
    unfold Line.HasProblem Problem.message
    refine ⟨name, args, class_, ?_⟩
    cases known : Request.ofName? name with
    | none =>
      rw [known] at found
      rw [← Option.some.inj found]
      exact .inl ⟨rfl, rfl, rfl⟩
    | some request =>
      rw [known] at found
      by_cases decrease : request = .marginDecrease
      · subst decrease
        obtain ⟨-, eq⟩ := Option.ite_none_right_eq_some.mp found
        rw [← Option.some.inj eq]
        exact .inr ⟨Request.name_of_marginDecrease known, rfl, rfl⟩
      · exact absurd found (by simp [cause?_ofRequest decrease])
  | _ =>
    rw [class_] at found
    cases found

theorem cause?_of_unknown {name : Text} {args : List Text}
    (request : Line.classify line = .request name args) (unknown : Request.ofName? name = none) :
    (ofLine line input).1.cause? nesting = some (.unknownRequest name) := by
  unfold ofLine
  rw [request]
  dsimp only
  rw [unknown]
  rfl

end Effect

/-- What a line in front of a page makes a document report: one problem at most, which stands at the
line. -/
structure Finds (line : Text) (rest : Input) (found : Option Problem) : Prop where
  source : ∀ problem ∈ found.toList, problem.source = rest.name
  number : ∀ problem ∈ found.toList, problem.line = rest.line
  fault : ∀ problem ∈ found.toList, Line.HasProblem line problem
  unknown : ∀ name args, Line.classify line = .request name args → Request.ofName? name = none →
    found = some { source := rest.name, line := rest.line, cause := .unknownRequest name }

theorem problems_step (options : Options) (state : State) (line : Text) (rest : Input) :
    ∃ found, Finds line rest found ∧
      (step options state line rest).state.problems = state.problems ++ found.toList := by
  let problem (cause : Cause) : Problem := { source := rest.name, line := rest.line, cause }
  refine ⟨((Effect.ofLine line rest).1.cause? state.nesting).map problem, ?_, ?_⟩
  · have placed : ∀ found ∈ (((Effect.ofLine line rest).1.cause? state.nesting).map problem).toList,
        ∃ cause, Line.HasProblem line (problem cause) ∧ problem cause = found := by
      intro found mem
      obtain ⟨cause, wrong, eq⟩ := Option.map_eq_some_iff.mp (Option.mem_toList.mp mem)
      exact ⟨cause, Effect.hasProblem_of_cause? wrong, eq⟩
    constructor
    · intro found mem
      obtain ⟨cause, -, rfl⟩ := placed found mem
      rfl
    · intro found mem
      obtain ⟨cause, -, rfl⟩ := placed found mem
      rfl
    · intro found mem
      obtain ⟨cause, fault, rfl⟩ := placed found mem
      exact fault
    · intro name args request unknown
      rw [Effect.cause?_of_unknown request unknown, Option.map_some]
  · rw [(step_does options state line rest).state, Effect.apply]
    cases (Effect.ofLine line rest).1.cause? state.nesting <;> rfl

/-! ### Turns -/

theorem took_of_next (h : input.next = (.ok (some line), rest)) :
    Took input [line] rest.unread rest := by
  unfold Input.next at h
  split at h
  · simp at h
  · rename_i unread
    cases h
    exact ⟨unread, rfl, rfl⟩
  · simp at h

/-- A turn takes its line behind the lines `before` of a page, and reads the lines `ahead`. -/
structure Turn.Takes (turn : Turn) (page : Input) (before ahead : List Text) : Prop where
  unread : page.unread = (before ++ turn.line :: ahead).map .text ++ turn.step.input.unread
  number : turn.number = page.line + before.length + 1
  line : turn.step.input.line = turn.number + ahead.length

theorem turnOf_takes {output : Option Text} (next : input.next = (.ok (some line), rest))
    (ok : (step options state line rest).output = .ok output) :
    ∃ ahead, (turnOf options state line rest).Takes input [] ahead ∧
      Took input (line :: ahead) (step options state line rest).input.unread
        (step options state line rest).input := by
  have first := took_of_next next
  obtain ⟨ahead, second, -⟩ := (step_reads options state line).success
    (Step.outcome_eq_ok.mpr ⟨ok, rfl, rfl⟩)
  have took : Took input (line :: ahead) _ (step options state line rest).input :=
    first.trans second
  exact ⟨ahead, ⟨took.unread, first.line, second.line⟩, took⟩

theorem Turn.Takes.behind {turn : Turn} {page : Input} {used before ahead : List Text}
    (takes : turn.Takes rest before ahead) (took : Took page used rest.unread rest) :
    turn.Takes page (used ++ before) ahead := by
  refine ⟨?_, ?_, takes.line⟩
  · rw [took.unread, takes.unread, ← List.append_assoc, ← List.map_append, List.append_assoc]
  · rw [takes.number, took.line, List.length_append]
    omega

/-! ### Runs -/

/-- What is known of the problems that turns on a page report. -/
structure Reports (page : Input) (turns : List Turn) (problems : List Problem) : Prop where
  order : problems.Pairwise (·.line < ·.line)
  later : ∀ problem ∈ problems, page.line < problem.line
  cause : ∀ problem ∈ problems, problem.source = page.name ∧
    ∃ turn ∈ turns, turn.number = problem.line ∧ Line.HasProblem turn.line problem
  takes : ∀ turn ∈ turns, ∃ before ahead, turn.Takes page before ahead ∧
    ∀ problem ∈ problems, problem.line ≤ turn.number ∨ turn.step.input.line < problem.line
  unknown : ∀ turn ∈ turns, ∀ name args, Line.classify turn.line = .request name args →
    Request.ofName? name = none → problems.filter (·.line = turn.number) =
      [{ source := page.name, line := turn.number, cause := .unknownRequest name }]

theorem Reports.nil (page : Input) : Reports page [] [] := by
  constructor <;> simp

theorem filter_line_eq_nil {problems : List Problem} {number : Nat}
    (other : ∀ problem ∈ problems, problem.line ≠ number) :
    problems.filter (·.line = number) = [] :=
  List.filter_eq_nil_iff.mpr fun problem mem => by simpa using other problem mem

/-- A problem of a turn stands in front of those of the turns that follow, and behind it no line
that the turn reads ahead has one. -/
theorem Reports.cons {output : Option Text} {found : Option Problem} {turns : List Turn}
    {problems : List Problem} (next : input.next = (.ok (some line), rest))
    (ok : (step options state line rest).output = .ok output) (finds : Finds line rest found)
    (reports : Reports (step options state line rest).input turns problems) :
    Reports input (turnOf options state line rest :: turns) (found.toList ++ problems) := by
  obtain ⟨ahead, takes, took⟩ := turnOf_takes next ok
  have first := took_of_next next
  have number : rest.line = input.line + 1 := first.line
  have forward : rest.line ≤ (step options state line rest).input.line := line_le_step ok
  constructor
  case order =>
    refine List.pairwise_append.mpr ⟨by cases found <;> simp, reports.order, ?_⟩
    intro problem mem problem' mem'
    rw [finds.number problem mem]
    exact Nat.lt_of_le_of_lt forward (reports.later problem' mem')
  case later =>
    intro problem mem
    rcases List.mem_append.mp mem with here | there
    · rw [finds.number problem here, number]
      exact Nat.lt_succ_self _
    · have later := reports.later problem there
      omega
  case cause =>
    intro problem mem
    rcases List.mem_append.mp mem with here | there
    · exact ⟨(finds.source problem here).trans first.name, _, List.mem_cons_self,
        (finds.number problem here).symm, finds.fault problem here⟩
    · obtain ⟨source, turn, read, at_, fault⟩ := reports.cause problem there
      exact ⟨source.trans took.name, turn, List.mem_cons_of_mem _ read, at_, fault⟩
  case takes =>
    intro turn mem
    rcases List.mem_cons.mp mem with rfl | mem
    · refine ⟨[], ahead, takes, fun problem mem => ?_⟩
      rcases List.mem_append.mp mem with here | there
      · exact .inl (Nat.le_of_eq (finds.number problem here))
      · exact .inr (reports.later problem there)
    · obtain ⟨before, ahead', takes', apart⟩ := reports.takes turn mem
      refine ⟨_, ahead', takes'.behind took, fun problem mem => ?_⟩
      rcases List.mem_append.mp mem with here | there
      · have line := finds.number problem here
        have later := takes'.number
        exact .inl (by omega)
      · exact apart problem there
  case unknown =>
    intro turn mem name args request unknown
    rw [List.filter_append]
    rcases List.mem_cons.mp mem with rfl | mem
    · have nothing : problems.filter (·.line = rest.line) = [] := by
        refine filter_line_eq_nil fun problem there => ?_
        have later := reports.later problem there
        omega
      rw [finds.unknown name args request unknown, first.name]
      show _ ++ problems.filter (·.line = rest.line) = _
      rw [nothing]
      simp [turnOf]
    · obtain ⟨before, ahead', takes', -⟩ := reports.takes turn mem
      have nothing : found.toList.filter (·.line = turn.number) = [] := by
        refine filter_line_eq_nil fun problem here => ?_
        have line := finds.number problem here
        have later := takes'.number
        omega
      rw [nothing, List.nil_append, reports.unknown turn mem name args request unknown, took.name]

theorem run_reports (options : Options) (state : State) (input : Input) :
    (run options state input).failure = none →
      ∃ problems, (run options state input).state.problems = state.problems ++ problems ∧
        Reports input (run options state input).turns problems := by
  induction state, input using run_induction options with
  | exhausted state input rest h =>
    intro _
    rw [run_exhausted h]
    exact ⟨[], (List.append_nil _).symm, .nil input⟩
  | fault state input error rest h =>
    intro success
    rw [run_fault h] at success
    cases success
  | error state input line rest error h failed =>
    intro success
    rw [run_error h failed] at success
    cases success
  | ok state input line rest output h ok ih =>
    intro success
    rw [run_ok h ok] at success ⊢
    obtain ⟨problems, final, reports⟩ := ih success
    obtain ⟨found, finds, own⟩ := problems_step options state line rest
    refine ⟨found.toList ++ problems, ?_, .cons h ok finds reports⟩
    show (run options _ _).state.problems = _
    rw [final, own, List.append_assoc]

/-! ### Pages -/

/-- The problems of a page stand at lines of the page, in the order of the lines. Each carries the
name of the page, and its line makes a request that is not known, which its message names, or is a
decrease of the margin. Every line that a run reads itself and that makes an unknown request has
exactly one problem, with that message, and the lines that it reads ahead of others have none. -/
theorem problems_of_convert (options : Options) (name text : Text) :
    let page := Input.ofText name text
    let ran := run options {} page
    ∃ problems, (convert options page).result = .ok problems ∧
      problems.Pairwise (·.line < ·.line) ∧
      (∀ problem ∈ problems, problem.source = name ∧ 1 ≤ problem.line ∧
        problem.line ≤ page.unread.length ∧
        ∃ line, page.unread[problem.line - 1]? = some (.text line) ∧
          Line.HasProblem line problem) ∧
      ∀ turn ∈ ran.turns, ∃ before ahead, turn.Takes page before ahead ∧
        (∀ request args, Line.classify turn.line = .request request args →
          Request.ofName? request = none →
            let here := problems.filter (·.line = turn.number)
            here = [{ source := name, line := turn.number, cause := .unknownRequest request }] ∧
              here.map Problem.message =
                ["unknown request `.".toList ++ request ++ "`".toList]) ∧
        ∀ problem ∈ problems, ∀ k < ahead.length, problem.line ≠ turn.number + 1 + k := by
  intro page ran
  have success : ran.failure = none := run_ofText options name text
  obtain ⟨problems, final, reports⟩ := run_reports options {} page success
  refine ⟨problems, ?_, reports.order, ?_, ?_⟩
  · rw [result_convert, show (run options {} page).failure = none from success, final]
    rfl
  · intro problem mem
    obtain ⟨source, turn, read, number, fault⟩ := reports.cause problem mem
    obtain ⟨before, ahead, takes, -⟩ := reports.takes turn read
    have index : problem.line = before.length + 1 := by
      rw [← number, takes.number]
      exact congrArg (· + 1) (Nat.zero_add _)
    rw [index, takes.unread]
    refine ⟨source, by omega, ?_, turn.line, ?_, fault⟩
    · simp only [List.length_append, List.length_map, List.length_cons]
      omega
    · simp
  · intro turn read
    obtain ⟨before, ahead, takes, apart⟩ := reports.takes turn read
    refine ⟨before, ahead, takes, fun request args class_ unknown => ?_,
      fun problem mem k below => ?_⟩
    · have once := reports.unknown turn read request args class_ unknown
      exact ⟨once, congrArg (List.map Problem.message) once⟩
    · have behind := takes.line
      rcases apart problem mem with here | there <;> omega

/-- The entry of a term is no request, whatever it begins with, and behind it two lines are at
fault. -/
theorem problems_of_convert_term :
    let page := Input.ofText ['p'] ".TP\n.XX\n.YY\n.RE\n".toList
    let ran := run {} {} page
    ∃ problems, (convert {} page).result = .ok problems ∧ problems.Pairwise (·.line < ·.line) ∧
      (∃ turn ∈ ran.turns, Line.classify turn.line = .request ['Y', 'Y'] [] ∧
        Request.ofName? ['Y', 'Y'] = none ∧ problems.filter (·.line = 3) =
          [{ source := ['p'], line := 3, cause := .unknownRequest ['Y', 'Y'] }] ∧
        (problems.filter (·.line = 3)).map Problem.message =
          ["unknown request `.YY`".toList]) ∧
      ∃ turn ∈ ran.turns, turn.number = 1 ∧ turn.step.input.line = 2 ∧
        ∀ problem ∈ problems, problem.line ≠ 2 := by
  intro page ran
  obtain ⟨problems, result, order, -, turns⟩ :=
    problems_of_convert {} ['p'] ".TP\n.XX\n.YY\n.RE\n".toList
  have places : ran.turns.map (fun turn => (turn.line, turn.number, turn.step.input.line)) =
      [(".TP".toList, 1, 2), (".YY".toList, 3, 3), (".RE".toList, 4, 4)] := by decide +kernel
  obtain ⟨term, tail, split, first, places⟩ := List.map_eq_cons_iff.mp places
  obtain ⟨unknown, tail, rfl, second, -⟩ := List.map_eq_cons_iff.mp places
  obtain ⟨-, number, behind⟩ : _ ∧ term.number = 1 ∧ term.step.input.line = 2 := by
    simpa using first
  obtain ⟨line, number', -⟩ : unknown.line = ".YY".toList ∧ unknown.number = 3 ∧ _ := by
    simpa using second
  have request : Line.classify unknown.line = .request ['Y', 'Y'] [] := by
    rw [line]
    decide
  have readTerm : term ∈ ran.turns := by simp [split]
  have readUnknown : unknown ∈ ran.turns := by simp [split]
  refine ⟨problems, result, order, ⟨unknown, readUnknown, request, by decide, ?_⟩,
    term, readTerm, number, behind, fun problem mem => ?_⟩
  · obtain ⟨before, ahead, -, once, -⟩ := turns unknown readUnknown
    rw [← number']
    exact once ['Y', 'Y'] [] request (by decide)
  · obtain ⟨before, ahead, takes, -, quiet⟩ := turns term readTerm
    have length := takes.line
    have apart := quiet problem mem 0 (by omega)
    omega

end Document

end ManPage
