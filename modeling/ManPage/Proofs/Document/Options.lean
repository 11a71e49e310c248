import ManPage.Proofs.Document.Agreement
import ManPage.Proofs.Document.Title

/-! The options of a conversion. They tell what stands around the lines of a page, and nothing else:
conversions of a page under any two options take the same lines, in documents with the same regions,
and put out the same for each line that does not ask for the title. -/

namespace ManPage.Document

variable {options options' : Options} {input : Input} {turns turns' : List Turn}

theorem run_options (options options' : Options) (input : Input) :
    let ran := run options {} input
    let ran' := run options' {} input
    List.Forall₂ (Turn.Agrees options options' id 0) ran.turns ran'.turns ∧
      ran'.failure = ran.failure ∧ ran'.input = ran.input ∧
      ran.state.Agrees id ran'.state := by
  have start : State.Agrees id {} {} := ⟨rfl, rfl, rfl⟩
  exact run_agrees start fun problem _ => rfl

/-- Where lines that ask for the title put out nothing under the one options, the lines put out
what the others do under the other options. -/
theorem output?_agrees (agrees : List.Forall₂ (Turn.Agrees options options' id 0) turns turns')
    (silent : ∀ turn ∈ turns', asksForTitle turn.line = true → turn.output? = none) :
    turns'.filterMap Turn.output? =
      (turns.filter fun turn => !asksForTitle turn.line).filterMap Turn.output? := by
  induction agrees with
  | nil => rfl
  | @cons turn turn' turns turns' agrees _ ih =>
    have later := ih fun turn mem => silent turn (List.mem_cons_of_mem _ mem)
    cases asks : asksForTitle turn.line with
    | true =>
      have quiet := silent turn' List.mem_cons_self (agrees.line ▸ asks)
      rw [List.filterMap_cons_none quiet, List.filter_cons_of_neg (by simp [asks]), later]
    | false =>
      rw [List.filter_cons_of_pos (by simp [asks]), List.filterMap_cons, List.filterMap_cons,
        agrees.output? (.inr asks), later]

theorem closing?_agrees {move : Problem → Problem} {ran ran' : Run}
    (failure : ran'.failure = ran.failure) (agrees : ran.state.Agrees move ran'.state) :
    ran'.closing? = ran.closing? := by
  rw [Run.closing?, Run.closing?, failure, agrees.nesting]

/-- With HTML around the page, its end stands behind the lines and the markup that closes the open
regions. -/
theorem html_of_html (html : options.mode = .html) (input : Input) :
    let ran := run options {} input
    (convert options input).html =
      joinLines (ran.turns.filterMap Turn.output?) ++ joinLines ran.closing?.toList ++
        (if ran.failure = none ∧ ran.hasTitle then Title.htmlTrailer ++ ['\n'] else []) := by
  intro ran
  rw [convert_html, ending?_run, Title.trailer?, html]
  by_cases ends : ran.failure = none ∧ ran.hasTitle
  · rw [if_pos ends, if_pos ends]
    rfl
  · rw [if_neg ends, if_neg ends]
    rfl

/-- Without HTML around the page, the output is that of the lines under any other options, less those
that ask for the title. -/
theorem html_of_raw (raw : options'.mode = .raw) (options : Options) (input : Input) :
    let ran := run options {} input
    (convert options' input).html =
      joinLines ((ran.turns.filter fun turn => !asksForTitle turn.line).filterMap Turn.output?) ++
        joinLines ran.closing?.toList := by
  intro ran
  obtain ⟨turns, failure, -, state⟩ := run_options options options' input
  have silent : ∀ turn ∈ (run options' {} input).turns,
      asksForTitle turn.line = true → turn.output? = none := by
    intro turn mem asks
    rw [← isSome_title?] at asks
    obtain ⟨title, asked⟩ := Option.isSome_iff_exists.mp asks
    rw [output?_of_title mem asked, Title.head?, raw]
  rw [convert_html, output?_agrees turns silent, closing?_agrees failure state, ending?_run,
    Title.trailer?, raw, ite_self]
  exact List.append_nil _

/-- A page that does not ask for its title comes out the same under all options. -/
theorem html_of_hasTitle (untitled : (run options {} input).hasTitle = false) (options' : Options) :
    (convert options' input).html = (convert options input).html := by
  obtain ⟨turns, failure, -, state⟩ := run_options options options' input
  have untitled' : (run options' {} input).hasTitle = false :=
    (any_agrees asksForTitle turns).trans untitled
  have body (ran : Run) (untitled : ran.hasTitle = false) :
      ∀ turn ∈ ran.turns, asksForTitle turn.line = false := by
    simpa [Run.hasTitle] using untitled
  have outputs : (run options' {} input).turns.filterMap Turn.output? =
      (run options {} input).turns.filterMap Turn.output? := by
    rw [output?_agrees turns fun turn mem asks => absurd asks (by simp [body _ untitled' turn mem]),
      List.filter_eq_self.mpr fun turn mem => by simp [body _ untitled turn mem]]
  rw [convert_html, convert_html, outputs, closing?_agrees failure state, ending?_run, ending?_run,
    if_neg (by simp [untitled']), if_neg (by simp [untitled])]

/-- Under any two options a page is read line for line in the same way: the documents have the same
regions behind each line, a line that does not ask for the title puts out the same, and the problems
are the same. Without HTML around the page, the output is the one with it, less the head of the page
for each line that asks for the title and the end of the page. A page without such a line comes out
the same under all options. -/
theorem convert_options (options options' : Options) (input : Input) :
    let ran := run options {} input
    let ran' := run options' {} input
    List.Forall₂ (fun turn turn' =>
        turn'.line = turn.line ∧ turn'.number = turn.number ∧
        turn'.step.state.nesting = turn.step.state.nesting ∧
        (asksForTitle turn.line = false → turn'.step.output = turn.step.output))
      ran.turns ran'.turns ∧
    (convert options' input).input = (convert options input).input ∧
    (convert options' input).result = (convert options input).result ∧
    (options.mode = .html → options'.mode = .raw →
      (∀ turn ∈ ran.turns, ∀ title, title? turn.line = some title →
        turn.output? = some title.htmlHead) ∧
      (convert options input).html =
        joinLines (ran.turns.filterMap Turn.output?) ++ joinLines ran.closing?.toList ++
          (if ran.failure = none ∧ ran.hasTitle then Title.htmlTrailer ++ ['\n'] else []) ∧
      (convert options' input).html =
        joinLines ((ran.turns.filter fun turn => !asksForTitle turn.line).filterMap Turn.output?) ++
          joinLines ran.closing?.toList) ∧
    (ran.hasTitle = false → (convert options' input).html = (convert options input).html) := by
  intro ran ran'
  obtain ⟨turns, failure, behind, state⟩ := run_options options options' input
  refine ⟨?_, ?_, ?_, fun html raw => ⟨?_, html_of_html html input, html_of_raw raw options input⟩,
    fun untitled => html_of_hasTitle untitled options'⟩
  · exact turns.imp fun turn turn' agrees =>
      ⟨agrees.line, agrees.number, agrees.state.nesting, fun body => agrees.output (.inr body)⟩
  · rw [input_convert, input_convert, behind]
  · rw [result_convert, result_convert, failure, state.problems, List.map_id]
  · intro turn mem title asked
    rw [output?_of_title mem asked, Title.head?, html]

/-- A list behind a title, with HTML around the page and without, and the list alone. -/
theorem convert_options_list :
    let raw : Options := { mode := .raw }
    let titled : Input := .ofText [] ".TH p 1\n.TP\nt\n".toList
    let plain : Input := .ofText [] ".TP\nt\n".toList
    let title : Title := { title := ['p'], sectionNumber := ['1'] }
    let list := "<dl><dt>t</dt><dd>\n</dd></dl>\n".toList
    (convert {} titled).html = title.htmlHead ++ '\n' :: list ++ Title.htmlTrailer ++ ['\n'] ∧
      (convert raw titled).html = list ∧ (convert raw plain).html = (convert {} plain).html := by
  intro raw titled plain title list
  obtain ⟨-, -, -, around, -⟩ := convert_options {} raw titled
  obtain ⟨-, html, body⟩ := around rfl rfl
  obtain ⟨-, -, -, -, same⟩ := convert_options {} raw plain
  exact ⟨html.trans (by decide +kernel), body.trans (by decide +kernel), same (by decide +kernel)⟩

end ManPage.Document
