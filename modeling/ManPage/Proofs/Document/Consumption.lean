import ManPage.Proofs.Document.Effect
import ManPage.Proofs.Document.Reading

/-! Which lines a step takes. A line that makes no request, and a request that is not said to read
ahead, take none. The others take lines from the start of the page: the next one, up to two for an
entry, and blocks up to the line that ends them. -/

namespace ManPage

open Input (readBlock)

variable {α β : Type} {input rest : Input}

/-! ### What is taken -/

/-- Which lines are taken, in front of those that are left. -/
abbrev Taking := List Text → List RawLine → Prop

namespace Taking

def nothing : Taking := fun used _ => used = []

/-- The next line, or none at the end of the page. -/
def next : Taking := fun used left => used.length ≤ 1 ∧ (used = [] → left = [])

/-- The lines up to and including the first that satisfies `stop`, or all if none does. -/
def through (stop : Text → Bool) : Taking := fun used left =>
  (∃ body last, used = body ++ [last] ∧ (∀ line ∈ body, stop line = false) ∧ stop last = true) ∨
    (∀ line ∈ used, stop line = false) ∧ left = []

/-- The lines of one taking and behind them those of another. -/
def andThen (first second : Taking) : Taking := fun used left =>
  ∃ used₁ used₂, used = used₁ ++ used₂ ∧ first used₁ (used₂.map .text ++ left) ∧ second used₂ left

end Taking

/-- The lines that a reader takes when it succeeds. -/
def Consumes (reader : Reader α) (taking : Taking) : Prop :=
  ∀ input rest value, reader input = (.ok value, rest) →
    ∃ used, Took input used rest.unread rest ∧ taking used rest.unread

theorem took_nothing (input : Input) : Took input [] input.unread input :=
  ⟨rfl, rfl, rfl⟩

theorem eq_of_took_nothing (took : Took input [] rest.unread rest) : rest = input := by
  obtain ⟨name, line, unread⟩ := rest
  obtain ⟨name', line', unread'⟩ := input
  cases took.name
  cases took.line
  cases took.unread
  rfl

namespace Consumes

theorem pure {reader : Reader α} (stays : ∀ input, (reader input).2 = input) :
    Consumes reader .nothing := by
  intro input rest value read
  obtain rfl : input = rest := (stays input).symm.trans (congrArg Prod.snd read)
  exact ⟨[], took_nothing input, rfl⟩

theorem map {reader : Reader α} {reader' : Reader β} {taking : Taking} {f : α → β}
    (consumes : Consumes reader taking)
    (eq : ∀ input, reader' input = ((reader input).1.map f, (reader input).2)) :
    Consumes reader' taking := by
  intro input rest value read
  rw [eq] at read
  rcases found : reader input with ⟨error | value', rest'⟩
  · rw [found] at read
    cases read
  · rw [found] at read
    cases read
    exact consumes _ _ _ found

theorem bind {reader : Reader α} {next : α → Reader β} {both : Reader β} {first second : Taking}
    (consumes : Consumes reader first) (then_ : ∀ value, Consumes (next value) second)
    (ok : ∀ input value rest, reader input = (.ok value, rest) → both input = next value rest)
    (failed : ∀ input error rest, reader input = (.error error, rest) →
      both input = (.error error, rest)) : Consumes both (first.andThen second) := by
  intro input rest value read
  rcases found : reader input with ⟨error | value', mid⟩
  · cases (failed _ _ _ found).symm.trans read
  · obtain ⟨used₁, took₁, taken₁⟩ := consumes _ _ _ found
    obtain ⟨used₂, took₂, taken₂⟩ :=
      then_ value' _ _ _ ((ok _ _ _ found).symm.trans read)
    refine ⟨used₁ ++ used₂, took₁.trans took₂, used₁, used₂, rfl, ?_, taken₂⟩
    rwa [took₂.unread] at taken₁

end Consumes

/-! ### Lines and blocks -/

namespace Input

theorem next_eq_ok {value : Option Text} (read : input.next = (.ok value, rest)) :
    (value = none ∧ rest = input ∧ input.unread = []) ∨
      ∃ line, value = some line ∧ Took input [line] rest.unread rest := by
  unfold next at read
  split at read
  · rename_i unread
    cases read
    exact .inl ⟨rfl, rfl, unread⟩
  · rename_i line left unread
    cases read
    exact .inr ⟨line, rfl, unread, rfl, rfl⟩
  · cases read

theorem next_consumes : Consumes next .next := by
  intro input rest value read
  rcases next_eq_ok read with ⟨-, rfl, unread⟩ | ⟨line, -, took⟩
  · exact ⟨[], took_nothing _, Nat.zero_le _, fun _ => unread⟩
  · exact ⟨[line], took, Nat.le_refl _, fun empty => absurd empty (List.cons_ne_nil _ _)⟩

theorem readBlock_consumes (stop : Text → Bool) : Consumes (readBlock stop) (.through stop) := by
  intro input rest block read
  obtain ⟨last, -, ⟨outside, stops, all⟩, took⟩ := readBlock_eq_ok_iff.mp read
  have inside : ∀ line ∈ block.lines, stop line = false :=
    fun line mem => Bool.eq_false_iff.mpr (outside line mem)
  refine ⟨_, took, ?_⟩
  cases last with
  | none => exact .inr ⟨by rwa [Option.toList_none, List.append_nil], all rfl⟩
  | some last => exact .inl ⟨block.lines, last, rfl, inside, stops last rfl⟩

end Input

theorem Table.read_consumes : Consumes (fun input => (Table.read input).outcome)
    (Taking.andThen (.through Format.isLast) (.through isEnd)) :=
  ((Input.readBlock_consumes Format.isLast).map Format.read_eq_map).bind
    (fun format => (Input.readBlock_consumes isEnd).map (readBody_eq_map format))
    (fun _ _ _ => read_of_ok) fun _ _ _ => read_of_error

namespace Document

open Effect

/-! ### Requests -/

/-- The text of a request that has `args`: the next line, if they are none. -/
def textLine (args : List Text) : Taking :=
  if args.isEmpty then .next else .nothing

/-- A request for a font that asks for the next line. -/
def asksForLine (line : Text) : Bool :=
  match fontRequest? line with
  | some (.font _, args) => args.isEmpty
  | _ => false

/-- An entry: the next line, and one more if that asks for it. -/
def entryLines : Taking := fun used left =>
  used.length ≤ 2 ∧ (used = [] → left = []) ∧ ∀ line more, used = line :: more →
    if asksForLine line then Taking.next more left else more = []

/-- The lines that a request takes. -/
def requestLines (request : Request) (args : List Text) : Taking :=
  match request with
  | .heading _ | .font _ => textLine args
  | .term => entryLines
  | .indentedParagraph => if args.head?.any bullets.contains then entryLines else .nothing
  | .skippedBlock => .through endsSkippedBlock
  | .table => Taking.andThen (.through Table.Format.isLast) (.through Table.isEnd)
  | _ => .nothing

/-- The lines that a line takes. -/
def linesOf (line : Text) : Taking :=
  match Line.classify line with
  | .request name args =>
    (Request.ofName? name).elim .nothing fun request => requestLines request args
  | _ => .nothing

/-- A line whose request is said to read ahead, with the arguments that it has. -/
def readsAhead (line : Text) : Bool :=
  match Line.classify line with
  | .request name args =>
    (Request.ofName? name).any fun request => request.readsAhead args.length
  | _ => false

variable {options : Options} {state : State} {line : Text} {request : Request}
  {args : List Text}

/-- A request that is not said to read ahead takes no line. -/
theorem requestLines_of_not_readsAhead (still : request.readsAhead args.length = false) :
    requestLines request args = .nothing := by
  have given (still : (args.length == 0) = false) : textLine args = .nothing := by
    cases args with
    | nil => cases still
    | cons arg args => rfl
  cases request with
  | heading level => exact given still
  | font font => exact given still
  | indentedParagraph => cases still
  | term => cases still
  | skippedBlock => cases still
  | table => cases still
  | _ => rfl

theorem linesOf_of_not_readsAhead (still : readsAhead line = false) : linesOf line = .nothing := by
  unfold readsAhead at still
  unfold linesOf
  cases class_ : Line.classify line with
  | request name args =>
    rw [class_] at still
    dsimp only at still ⊢
    cases known : Request.ofName? name with
    | none => rfl
    | some request =>
      rw [known, Option.any_some] at still
      exact requestLines_of_not_readsAhead still
  | _ => rfl

theorem readText_consumes (args : List Text) :
    Consumes (fun input => (readText args input).outcome) (textLine args) := by
  unfold readText textLine
  split
  · exact Input.next_consumes
  · exact .pure fun _ => rfl

theorem readFont_consumes (font : Font) (args : List Text) :
    Consumes (fun input => (readFont font args input).outcome) (textLine args) :=
  (readText_consumes args).map (readFont_eq_map font args)

theorem entryOfLine_consumes (line : Text) :
    Consumes (fun input => (entryOfLine line input).outcome)
      (if asksForLine line then .next else .nothing) := by
  unfold entryOfLine asksForLine
  cases fontRequest? line with
  | none => exact .pure fun _ => rfl
  | some found =>
    obtain ⟨request, args⟩ := found
    cases request with
    | font font => exact readFont_consumes font args
    | _ => exact .pure fun _ => rfl

theorem readEntry_consumes : Consumes (fun input => (readEntry input).outcome) entryLines := by
  intro input rest value read
  dsimp only [readEntry] at read
  rcases next : input.next with ⟨error | value', mid⟩
  · rw [next] at read
    cases read
  · rw [next] at read
    rcases Input.next_eq_ok next with ⟨rfl, rfl, unread⟩ | ⟨line, rfl, took⟩
    · cases read
      exact ⟨[], took_nothing _, Nat.zero_le _, fun _ => unread, fun _ _ empty => nomatch empty⟩
    · obtain ⟨more, tookMore, taken⟩ := entryOfLine_consumes line _ _ _ read
      refine ⟨line :: more, took.trans tookMore, ?_, (nomatch ·), ?_⟩
      · have atMost : more.length ≤ 1 := by
          split at taken
          · exact taken.1
          · rw [show more = [] from taken]
            exact Nat.zero_le 1
        exact Nat.succ_le_succ atMost
      · rintro _ _ ⟨⟩
        split
        · rwa [if_pos ‹_›] at taken
        · rwa [if_neg ‹_›] at taken

theorem skipBlock_consumes :
    Consumes (fun input => (skipBlock input).outcome) (.through endsSkippedBlock) :=
  (Input.readBlock_consumes endsSkippedBlock).map skipBlock_eq_map

/-! ### Steps -/

/-- The page behind a line that does not fail. -/
def Settles (effect : Effect × Input) (input : Input) (taking : Taking) : Prop :=
  (∃ error entered, effect.1 = .fault error entered) ∨
    ∃ used, Took input used effect.2.unread effect.2 ∧ taking used effect.2.unread

theorem settles_nothing (effect : Effect) (input : Input) :
    Settles (effect, input) input .nothing :=
  .inr ⟨[], took_nothing input, rfl⟩

theorem settles_ofOutcome {α : Type} {reader : Reader α} {taking : Taking}
    (consumes : Consumes reader taking) (entered : Option Region) (effect : α → Effect)
    (input : Input) : Settles (ofOutcome entered effect (reader input)) input taking := by
  rcases read : reader input with ⟨error | value, rest⟩
  · exact .inl ⟨error, entered, rfl⟩
  · exact .inr (consumes _ _ _ read)

theorem settles_ofRequest (request : Request) (args : List Text) (input : Input) :
    Settles (ofRequest request args input) input (requestLines request args) := by
  cases request with
  | heading level => exact settles_ofOutcome (readText_consumes args) _ _ input
  | indentedParagraph =>
    unfold ofRequest requestLines
    dsimp only
    split
    · exact settles_ofOutcome readEntry_consumes _ _ input
    · exact settles_nothing _ input
  | term => exact settles_ofOutcome readEntry_consumes _ _ input
  | font font => exact settles_ofOutcome (readFont_consumes font args) _ _ input
  | skippedBlock => exact settles_ofOutcome skipBlock_consumes _ _ input
  | table => exact settles_ofOutcome Table.read_consumes _ _ input
  | _ => exact settles_nothing _ input

theorem settles_ofLine (line : Text) (input : Input) :
    Settles (ofLine line input) input (linesOf line) := by
  unfold ofLine linesOf
  cases Line.classify line with
  | request name args =>
    dsimp only
    cases Request.ofName? name with
    | none => exact settles_nothing _ input
    | some request => exact settles_ofRequest request args input
  | _ => exact settles_nothing _ input

/-- A step on a page whose lines can all be read does not fail. -/
theorem output_of_readable (options : Options) (state : State) (line : Text)
    (readable : ∀ raw ∈ input.unread, ∃ text, raw = .text text) :
    ∃ output, (step options state line input).output = .ok output := by
  cases put : (step options state line input).output with
  | ok output => exact ⟨output, rfl⟩
  | error error =>
    obtain ⟨used, took⟩ := (step_reads options state line).failure
      (show (step options state line input).outcome = (.error error, _) by
        rw [Step.outcome, put]
        rfl)
    obtain ⟨text, eq⟩ := readable (.fault error) (by rw [took.unread]; simp)
    cases eq

/-- A step on a page whose lines can all be read does not fail; and a step that does not fail takes
the lines that its line asks for from the start of the page, and counts them. It leaves the page as
it was if its line is not said to read ahead. -/
theorem step_takes (options : Options) (state : State) (line : Text) (input : Input) :
    let after := step options state line input
    ((∀ raw ∈ input.unread, ∃ text, raw = .text text) → ∃ output, after.output = .ok output) ∧
      ∀ output, after.output = .ok output →
        (readsAhead line = false → after.input = input) ∧
          ∃ used, Took input used after.input.unread after.input ∧
            linesOf line used after.input.unread := by
  intro after
  refine ⟨output_of_readable options state line, fun output ok => ?_⟩
  have does := step_does options state line input
  have same : (ofLine line input).2 = after.input := does.input.symm
  obtain ⟨used, took, taken⟩ : ∃ used, Took input used after.input.unread after.input ∧
      linesOf line used after.input.unread := by
    rcases settles_ofLine line input with fault | settled
    · cases ok.symm.trans (does.output.trans (output_eq_error_iff.mpr fault.choose_spec))
    · rwa [same] at settled
  refine ⟨fun still => ?_, used, took, taken⟩
  rw [linesOf_of_not_readsAhead still] at taken
  obtain rfl : used = [] := taken
  exact eq_of_took_nothing took

/-- The term of a list is a request for a font, which asks for one more line. -/
theorem step_takes_term :
    let page : Input :=
      { name := "a.1".toList, unread := [".B", "x", "y"].map fun line => .text line.toList }
    let behind := (step {} {} ".TP".toList page).input
    behind.line = 2 ∧ behind.unread = [.text ['y']] ∧
      ∃ used, Took page used behind.unread behind ∧ entryLines used behind.unread := by
  intro page behind
  obtain ⟨readable, takes⟩ := step_takes {} {} ".TP".toList page
  obtain ⟨output, ok⟩ := readable (by simp [page])
  have lines : linesOf ".TP".toList = entryLines := by rfl
  obtain ⟨-, used, took, taken⟩ := takes output ok
  rw [lines] at taken
  exact ⟨by decide +kernel, by decide +kernel, used, took, taken⟩

end Document

end ManPage
