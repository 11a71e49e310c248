import ManPage.Proofs.Document.Session
import ManPage.Proofs.Reading

/-! What a line does to a document. The line and the lines that it reads ahead come to an effect,
whatever the document is; what the effect makes of the document does not depend on the page. -/

namespace ManPage.Document

/-- What a line comes to. Behind a line that could not be read, the region of its entry may be
entered already. -/
inductive Effect
  | silent
  | html (html : Text)
  | paragraph
  | heading (level : HeadingLevel) (text : Text)
  | entry (region : Region) (before html after : Text)
  | marginIncrease
  | marginDecrease
  | title (args : List Text)
  | unknown (name : Text)
  | fault (error : ReadError) (entered : Option Region)
  deriving DecidableEq, Repr

namespace Effect

/-! ### The effect of a line -/

def ofOutcome {α : Type} (entered : Option Region) (effect : α → Effect) :
    Except ReadError α × Input → Effect × Input
  | (.ok value, input) => (effect value, input)
  | (.error error, input) => (.fault error entered, input)

def ofPiece : Option Text → Effect
  | some piece => .html piece
  | none => .silent

def ofRequest (request : Request) (args : List Text) (input : Input) : Effect × Input :=
  match request with
  | .title => (.title args, input)
  | .heading level =>
    ofOutcome none (fun text? => text?.elim .silent (.heading level)) (readText args input).outcome
  | .paragraph => (.paragraph, input)
  | .indentedParagraph =>
    if args.head?.any bullets.contains then
      ofOutcome (some .bullets) (fun html => .entry .bullets "<li>".toList (html.getD []) [])
        (readEntry input).outcome
    else (.paragraph, input)
  | .marginIncrease => (.marginIncrease, input)
  | .marginDecrease => (.marginDecrease, input)
  | .term =>
    ofOutcome (some .definitions)
      (fun html => .entry .definitions "<dt>".toList (html.getD []) "</dt><dd>".toList)
      (readEntry input).outcome
  | .font font => ofOutcome none ofPiece (readFont font args input).outcome
  | .alternatingFonts first second => (.html (Inline.alternate first second args), input)
  | .lineBreak => (.html "<br>".toList, input)
  | .preformattedStart => (.html "<pre>".toList, input)
  | .preformattedEnd => (.html "</pre>".toList, input)
  | .ignored => (.silent, input)
  | .skippedBlock => ofOutcome none ofPiece (skipBlock input).outcome
  | .table => ofOutcome none .html (Table.read input).outcome

/-- The effect of a line in front of a page, and the page behind what it reads. -/
def ofLine (line : Text) (input : Input) : Effect × Input :=
  match Line.classify line with
  | .blank => (.paragraph, input)
  | .text content => (.html (Inline.renderLine content), input)
  | .empty | .comment => (.silent, input)
  | .request name args =>
    match Request.ofName? name with
    | some request => ofRequest request args input
    | none => (.unknown name, input)

/-! ### What an effect makes of a document -/

def nesting (effect : Effect) (before : Nesting) : Nesting :=
  match effect with
  | paragraph | heading _ _ => before.closeRegion.2
  | entry region _ _ _ | fault _ (some region) => (before.enterEntry region).2
  | marginIncrease => before.push
  | marginDecrease => before.pop.2
  | _ => before

def anchors (effect : Effect) (before : Anchors) : Anchors :=
  match effect with
  | heading _ text => (before.register (Inline.render text)).2
  | _ => before

def trailer (effect : Effect) (options : Options) (before : Option Text) : Option Text :=
  match effect with
  | title _ => Title.trailer? options
  | _ => before

def cause? (effect : Effect) (before : Nesting) : Option Cause :=
  match effect with
  | unknown name => some (.unknownRequest name)
  | marginDecrease => if before.isBase then some .unmatchedMarginDecrease else none
  | _ => none

/-- The document behind a line, which stands in front of the page `place`. -/
def apply (effect : Effect) (options : Options) (place : Input) (state : State) : State :=
  { nesting := effect.nesting state.nesting
    anchors := effect.anchors state.anchors
    trailer := effect.trailer options state.trailer
    problems := state.problems ++ (effect.cause? state.nesting).toList.map fun cause =>
      { source := place.name, line := place.line, cause } }

def output (effect : Effect) (options : Options) (nesting : Nesting) (anchors : Anchors) :
    Except ReadError (Option Text) :=
  match effect with
  | silent | marginIncrease | unknown _ => .ok none
  | html piece => .ok (some piece)
  | paragraph => .ok (some (nesting.closeRegion.1 ++ "<p>".toList))
  | heading level text =>
    let rendered := Inline.render text
    .ok (some (nesting.closeRegion.1 ++
      renderHeading level (anchors.register rendered).1 rendered))
  | entry region before text after =>
    .ok (some ((nesting.enterEntry region).1 ++ before ++ text ++ after))
  | marginDecrease => .ok (Text.nonempty? nesting.pop.1.closing)
  | title args => .ok ((Title.ofArgs args).head? options)
  | fault error _ => .error error

end Effect

/-- A step is an effect on a document, with the page behind it. -/
structure Step.Does (step : Step) (options : Options) (state : State) (place : Input)
    (effect : Effect × Input) : Prop where
  output : step.output = effect.1.output options state.nesting state.anchors
  state : step.state = effect.1.apply options place state
  input : step.input = effect.2

open Effect

variable {options : Options} {state : State} {input : Input} {line : Text}

/-- An effect without a problem leaves the problems as they are. -/
theorem Effect.apply_of_cause? {effect : Effect} (fine : effect.cause? state.nesting = none)
    (options : Options) (place : Input) : effect.apply options place state =
      { nesting := effect.nesting state.nesting
        anchors := effect.anchors state.anchors
        trailer := effect.trailer options state.trailer
        problems := state.problems } := by
  rw [apply, fine, Option.toList_none, List.map_nil, List.append_nil]

theorem does_of_cause? {step : Step} {effect : Effect}
    (written : step.output = effect.output options state.nesting state.anchors)
    (fine : effect.cause? state.nesting = none)
    (made : step.state =
      { nesting := effect.nesting state.nesting
        anchors := effect.anchors state.anchors
        trailer := effect.trailer options state.trailer
        problems := state.problems }) :
    step.Does options state input (effect, step.input) :=
  ⟨written, made.trans (apply_of_cause? fine options input).symm, rfl⟩

theorem ofRead_does (read : Read (Option Text)) :
    (ofRead state read).Does options state input (ofOutcome none ofPiece read.outcome) := by
  obtain ⟨value, rest, notes⟩ := read
  rcases value with error | _ | html
  all_goals exact does_of_cause? rfl rfl rfl

theorem paragraphBreak_does :
    (paragraphBreak state input).Does options state input (.paragraph, input) :=
  does_of_cause? rfl rfl rfl

theorem heading_does (level : HeadingLevel) (args : List Text) :
    (heading level state args input).Does options state input
      (ofRequest (.heading level) args input) := by
  unfold heading ofRequest
  dsimp only
  rcases readText args input with ⟨error | _ | text, rest, notes⟩
  all_goals exact does_of_cause? rfl rfl rfl

/-- The region is entered also where the entry cannot be read. -/
theorem entry_does (region : Region) (before after : Text) :
    (entry region before after state input).Does options state input
      (ofOutcome (some region) (fun html => .entry region before (html.getD []) after)
        (readEntry input).outcome) := by
  unfold entry
  dsimp only
  rcases readEntry input with ⟨error | html, rest, notes⟩
  all_goals exact does_of_cause? rfl rfl rfl

theorem marginDecrease_does :
    (marginDecrease state input).Does options state input (.marginDecrease, input) := by
  unfold marginDecrease
  dsimp only
  by_cases base : state.nesting.isBase = true
  · rw [if_pos base]
    refine ⟨rfl, ?_, rfl⟩
    rw [apply, cause?, if_pos base]
    rfl
  · rw [if_neg base]
    exact does_of_cause? rfl (if_neg base) rfl

theorem table_does (name : Text) (args : List Text) :
    (perform options state .table name args input).Does options state input
      (ofRequest .table args input) := by
  unfold perform ofRequest
  dsimp only
  rcases Table.read input with ⟨error | html, rest, notes⟩
  all_goals exact does_of_cause? rfl rfl rfl

theorem perform_does (request : Request) (name : Text) (args : List Text) :
    (perform options state request name args input).Does options state input
      (ofRequest request args input) := by
  cases request with
  | heading level => exact heading_does level args
  | indentedParagraph =>
    unfold perform indentedParagraph ofRequest
    dsimp only
    split
    · exact entry_does .bullets _ _
    · exact paragraphBreak_does
  | marginDecrease => exact marginDecrease_does
  | term => exact entry_does .definitions _ _
  | font font => exact ofRead_does _
  | skippedBlock => exact ofRead_does _
  | table => exact table_does name args
  | _ => exact does_of_cause? rfl rfl rfl

/-- A step does what its line comes to. -/
theorem step_does (options : Options) (state : State) (line : Text) (input : Input) :
    (step options state line input).Does options state input (ofLine line input) := by
  unfold step ofLine
  cases Line.classify line with
  | blank => exact paragraphBreak_does
  | request name args =>
    unfold dispatch
    dsimp only
    cases Request.ofName? name with
    | some request =>
      have does : (perform options state request name args input).Does options state input _ :=
        perform_does request name args
      exact ⟨does.output, does.state, does.input⟩
    | none => exact ⟨rfl, rfl, rfl⟩
  | _ => exact does_of_cause? rfl rfl rfl

/-- A step fails where a line could not be read, whatever the document is. -/
theorem output_eq_error_iff {effect : Effect} {nesting : Nesting} {anchors : Anchors}
    {error : ReadError} :
    effect.output options nesting anchors = .error error ↔
      ∃ entered, effect = .fault error entered := by
  cases effect <;> simp [Effect.output]

/-! ### The requests of a line -/

/-- The request that a line makes, if it is known. -/
def request? (line : Text) : Option Request :=
  match Line.classify line with
  | .request name _ => Request.ofName? name
  | _ => none

theorem asksForTitle_eq (line : Text) : asksForTitle line = (request? line == some .title) := by
  unfold asksForTitle request?
  cases Line.classify line <;> rfl

theorem ofLine_of_makes {name : Text} {args : List Text} {request : Request}
    (makes : Line.classify line = .request name args)
    (known : Request.ofName? name = some request) (input : Input) :
    ofLine line input = ofRequest request args input := by
  rw [ofLine, makes]
  dsimp only
  rw [known]

theorem ofLine_of_request? {request : Request} (made : request? line = some request) :
    ∃ args, ∀ input, ofLine line input = ofRequest request args input := by
  unfold request? at made
  cases class_ : Line.classify line with
  | request name args =>
    rw [class_] at made
    exact ⟨args, ofLine_of_makes class_ made⟩
  | _ =>
    rw [class_] at made
    cases made

/-- The request that an effect is of, where it is about the margin or the title. -/
def Effect.request? : Effect → Option Request
  | marginIncrease => some .marginIncrease
  | marginDecrease => some .marginDecrease
  | title _ => some .title
  | _ => none

theorem request?_ofOutcome {α : Type} {entered : Option Region} {effect : α → Effect}
    (other : ∀ value, (effect value).request? = none) (outcome : Except ReadError α × Input) :
    (ofOutcome entered effect outcome).1.request? = none := by
  rcases outcome with ⟨error | value, input⟩
  · rfl
  · exact other value

theorem request?_ofPiece (piece : Option Text) : (ofPiece piece).request? = none := by
  cases piece <;> rfl

theorem request?_ofRequest (request : Request) (args : List Text) (input : Input) :
    (ofRequest request args input).1.request? = (some request).filter fun request =>
      request = .marginIncrease ∨ request = .marginDecrease ∨ request = .title := by
  cases request with
  | heading level => exact request?_ofOutcome (fun text? => by cases text? <;> rfl) _
  | indentedParagraph =>
    unfold ofRequest
    dsimp only
    split
    · exact request?_ofOutcome (fun _ => rfl) _
    · rfl
  | term => exact request?_ofOutcome (fun _ => rfl) _
  | font font => exact request?_ofOutcome request?_ofPiece _
  | skippedBlock => exact request?_ofOutcome request?_ofPiece _
  | table => exact request?_ofOutcome (fun _ => rfl) _
  | _ => rfl

theorem request?_ofLine (line : Text) (input : Input) :
    (ofLine line input).1.request? = (request? line).filter fun request =>
      request = .marginIncrease ∨ request = .marginDecrease ∨ request = .title := by
  unfold ofLine request?
  cases Line.classify line with
  | request name args =>
    dsimp only
    cases Request.ofName? name with
    | some request => exact request?_ofRequest request args input
    | none => rfl
  | _ => rfl

/-! A line has the effect of a request about the margin or the title just where it makes the
request. -/

theorem ofLine_eq_marginIncrease_iff :
    (ofLine line input).1 = .marginIncrease ↔ request? line = some .marginIncrease := by
  have effect : (ofLine line input).1 = .marginIncrease ↔
      (ofLine line input).1.request? = some .marginIncrease := by
    cases (ofLine line input).1 <;> simp [Effect.request?]
  rw [effect, request?_ofLine, Option.filter_eq_some_iff]
  simp

theorem ofLine_eq_marginDecrease_iff :
    (ofLine line input).1 = .marginDecrease ↔ request? line = some .marginDecrease := by
  have effect : (ofLine line input).1 = .marginDecrease ↔
      (ofLine line input).1.request? = some .marginDecrease := by
    cases (ofLine line input).1 <;> simp [Effect.request?]
  rw [effect, request?_ofLine, Option.filter_eq_some_iff]
  simp

theorem ofLine_eq_title_iff :
    (∃ args, (ofLine line input).1 = .title args) ↔ asksForTitle line := by
  have effect : (∃ args, (ofLine line input).1 = .title args) ↔
      (ofLine line input).1.request? = some .title := by
    cases (ofLine line input).1 <;> simp [Effect.request?]
  rw [effect, request?_ofLine, Option.filter_eq_some_iff, asksForTitle_eq, beq_iff_eq]
  simp

end ManPage.Document
