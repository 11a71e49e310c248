import ManPage.Proofs.Document.Agreement
import ManPage.Proofs.Document.Title

/-! Lines that can be erased. A run passes over comments, empty requests, requests that are ignored,
skipped blocks and empty margin blocks without output, and has the same document behind them as in
front of them. Where such lines are inserted between two turns of a run, the conversion is the same
but for the line numbers of the problems behind them. -/

namespace ManPage

/-- The page behind `count` more lines, with `left` to read. -/
def Input.past (input : Input) (count : Nat) (left : List RawLine) : Input :=
  { input with line := input.line + count, unread := left }

theorem Input.past_past (input : Input) (first second : Nat) (between left : List RawLine) :
    (input.past first between).past second left = input.past (first + second) left := by
  unfold past
  rw [Nat.add_assoc]

theorem Input.next_of_cons {input : Input} {line : Text} {left : List RawLine}
    (unread : input.unread = .text line :: left) :
    input.next = (.ok (some line), input.past 1 left) := by
  rw [next, unread]
  rfl

/-- A problem of a page in which `count` lines are inserted behind line `start`. -/
def Problem.moved (start count : Nat) (problem : Problem) : Problem :=
  if start < problem.line then { problem with line := problem.line + count } else problem

theorem Problem.map_moved {start : Nat} {problems : List Problem}
    (above : ∀ problem ∈ problems, problem.line ≤ start) (count : Nat) :
    problems.map (Problem.moved start count) = problems := by
  rw [List.map_congr_left fun problem mem => (if_neg (Nat.not_lt.mpr (above problem mem)) :
    problem.moved start count = problem), List.map_id']

namespace Document

variable {options options' : Options} {state mid after : State} {input rest between behind : Input}
  {line : Text} {chunks chunks' : List Text}

/-! ### The way of a run -/

/-- A run comes from one page and state of the document to another by turns that succeed, and puts
out `chunks` on the way. -/
inductive Reaches (options : Options) : State → Input → List Text → State → Input → Prop
  | here (state : State) (input : Input) : Reaches options state input [] state input
  | turn {state after : State} {input rest behind : Input} {line : Text} {output : Option Text}
      {chunks : List Text} (next : input.next = (.ok (some line), rest))
      (ok : (step options state line rest).output = .ok output)
      (later : Reaches options (step options state line rest).state
        (step options state line rest).input chunks after behind) :
      Reaches options state input (output.toList ++ chunks) after behind

namespace Reaches

theorem trans (first : Reaches options state input chunks mid between)
    (second : Reaches options mid between chunks' after behind) :
    Reaches options state input (chunks ++ chunks') after behind := by
  induction first with
  | here state input => exact second
  | turn next ok _ ih =>
    rw [List.append_assoc]
    exact .turn next ok (ih second)

/-- What a run does is what it does on its way, and then from there. -/
theorem run_eq (reaches : Reaches options state input chunks after behind) :
    let ran := run options state input
    let left := run options after behind
    ran.chunks = chunks ++ left.chunks ∧ left.turns <:+ ran.turns ∧
      ran.failure = left.failure ∧ ran.state = left.state := by
  induction reaches with
  | here state input => exact ⟨rfl, List.suffix_refl _, rfl, rfl⟩
  | @turn state after input rest behind line output chunks next ok _ ih =>
    obtain ⟨put, turns, failure, final⟩ := ih
    rw [run_ok next ok]
    refine ⟨?_, turns.trans (List.suffix_cons _ _), failure, final⟩
    have piece : (turnOf options state line rest).output? = output := by
      simp only [Turn.output?, turnOf, ok]
    unfold Run.chunks at put ⊢
    rw [Run.after, List.filterMap_cons, piece, put]
    cases output <;> rfl

/-- The way to a page takes the lines before it, and is the same in front of other lines. -/
theorem took (reaches : Reaches options state input chunks after behind) :
    ∃ used, Took input used behind.unread behind ∧ (behind.unread ≠ [] → ∀ other,
      Reaches options state (input.withUnread (used.map .text ++ other)) chunks after
        (behind.withUnread other)) := by
  induction reaches with
  | here state input => exact ⟨[], ⟨rfl, rfl, rfl⟩, fun _ other => .here state _⟩
  | @turn state after input rest behind line output chunks next ok _ ih =>
    obtain ⟨used, took, same⟩ := ih
    obtain ⟨first, tookFirst, sameFirst⟩ := turn_took next ok
    refine ⟨_, tookFirst.trans took, fun more other => ?_⟩
    have moreFirst : (step options state line rest).input.unread ≠ [] := by
      rw [took.unread]
      simp [more]
    obtain ⟨rest', next', ok', state', input'⟩ := sameFirst moreFirst (used.map .text ++ other)
    rw [List.map_append, List.append_assoc]
    refine .turn next' ok' ?_
    rw [state', input']
    exact same more other

theorem problems (reaches : Reaches options state input chunks after behind)
    (above : ∀ problem ∈ state.problems, problem.line ≤ input.line) :
    ∀ problem ∈ after.problems, problem.line ≤ behind.line := by
  induction reaches with
  | here state input => exact above
  | @turn state after input rest behind line output chunks next ok _ ih =>
    have later := Input.line_of_next next
    have ahead := line_le_step ok
    refine ih fun problem mem => ?_
    rw [(step_does options state line rest).state] at mem
    rcases List.mem_append.mp mem with before | here
    · have := above problem before
      omega
    · obtain ⟨cause, -, rfl⟩ := List.mem_map.mp here
      exact ahead

/-- The way is the same under other options, up to what titles put out. -/
theorem under (options' : Options) (reaches : Reaches options state input chunks after behind)
    {second : State} (agrees : state.Agrees id second) :
    ∃ chunks' after', Reaches options' second input chunks' after' behind := by
  induction reaches generalizing second with
  | here state input => exact ⟨[], second, .here second input⟩
  | @turn state after input rest behind line output chunks next ok _ ih =>
    have turn : Turn.Agrees options options' id 0 (turnOf options state line rest)
        (turnOf options' second line rest) := turnOf_agrees line agrees fun _ => rfl
    obtain ⟨output', ok'⟩ : ∃ output', (step options' second line rest).output = .ok output' :=
      step_moved_ok options' second 0 ok
    obtain ⟨chunks', after', later⟩ := ih turn.state
    have same : (step options' second line rest).input = (step options state line rest).input :=
      step_moved_input line rest 0
    rw [← same] at later
    exact ⟨_, after', .turn next ok' later⟩

end Reaches

/-- A run of a page comes to the lines `after` at its end: it reads the first of them itself, and
not ahead of an earlier line. -/
def ComesTo (options : Options) (input : Input) (after : List RawLine) : Prop :=
  ∃ chunks state behind, Reaches options {} input chunks state behind ∧ behind.unread = after

/-- Each turn of a run is at a page that the run comes to. -/
theorem reaches_of_mem_turns {turn : Turn} (mem : turn ∈ (run options state input).turns) :
    ∃ chunks after behind rest, Reaches options state input chunks after behind ∧
      behind.next = (.ok (some turn.line), rest) ∧ turn.number = rest.line := by
  induction state, input using run_induction options with
  | exhausted state input rest h =>
    rw [run_exhausted h] at mem
    cases mem
  | fault state input error rest h =>
    rw [run_fault h] at mem
    cases mem
  | error state input line rest error h failed =>
    rw [run_error h failed] at mem
    obtain rfl := List.mem_singleton.mp mem
    exact ⟨[], state, input, rest, .here state input, h, rfl⟩
  | ok state input line rest output h ok ih =>
    rw [run_ok h ok] at mem
    rcases List.mem_cons.mp mem with rfl | mem
    · exact ⟨[], state, input, rest, .here state input, h, rfl⟩
    · obtain ⟨chunks, after, behind, rest', reaches, next, number⟩ := ih mem
      exact ⟨_, after, behind, rest', .turn h ok reaches, next, number⟩

theorem turnOf_mem_turns (options : Options) (state : State)
    (h : input.next = (.ok (some line), rest)) :
    turnOf options state line rest ∈ (run options state input).turns := by
  cases outcome : (step options state line rest).output with
  | ok output =>
    rw [run_ok h outcome]
    exact List.mem_cons_self
  | error error =>
    rw [run_error h outcome]
    exact List.mem_cons_self

/-- A run comes to a line that can be read just where it has a turn with its number. -/
theorem comesTo_iff_turn {name : Text} {before left : List RawLine} :
    ComesTo options { name, unread := before ++ .text line :: left } (.text line :: left) ↔
      ∃ turn ∈ (run options {} { name, unread := before ++ .text line :: left }).turns,
        turn.number = before.length + 1 := by
  constructor
  · rintro ⟨chunks, state, behind, reaches, unread⟩
    obtain ⟨used, took, -⟩ := reaches.took
    obtain ⟨-, turns, -⟩ := reaches.run_eq
    refine ⟨_, turns.subset (turnOf_mem_turns options state (Input.next_of_cons unread)), ?_⟩
    have split := took.unread
    rw [unread] at split
    have count := congrArg List.length (List.append_cancel_right split)
    rw [List.length_map] at count
    show behind.line + 1 = before.length + 1
    rw [took.line, count]
    exact congrArg (· + 1) (Nat.zero_add _)
  · rintro ⟨turn, mem, number⟩
    obtain ⟨chunks, after, behind, rest, reaches, next, same⟩ := reaches_of_mem_turns mem
    refine ⟨chunks, after, behind, reaches, ?_⟩
    obtain ⟨used, took, -⟩ := reaches.took
    have later := Input.line_of_next next
    have count : before.length = (used.map RawLine.text).length := by
      have line : behind.line = 0 + used.length := took.line
      rw [List.length_map]
      omega
    exact (List.append_inj_right took.unread count).symm

/-! ### Lines that can be erased -/

/-- Lines that a page can do without. -/
inductive Erasable : List Text → Prop
  | nil : Erasable []
  | comment {line : Text} {lines : List Text} (comment : Line.classify line = .comment)
      (later : Erasable lines) : Erasable (line :: lines)
  | empty {line : Text} {lines : List Text} (empty : Line.classify line = .empty)
      (later : Erasable lines) : Erasable (line :: lines)
  | ignored {line : Text} {lines : List Text} (ignored : request? line = some .ignored)
      (later : Erasable lines) : Erasable (line :: lines)
  | block {start stop : Text} {body lines : List Text} (skips : request? start = some .skippedBlock)
      (inside : ∀ line ∈ body, endsSkippedBlock line = false) (ends : endsSkippedBlock stop = true)
      (later : Erasable lines) : Erasable (start :: (body ++ stop :: lines))
  | margin {increase decrease : Text} {lines : List Text}
      (increases : request? increase = some .marginIncrease)
      (decreases : request? decrease = some .marginDecrease)
      (later : Erasable lines) : Erasable (increase :: decrease :: lines)

theorem reaches_of_effect {effect : Effect} {output : Option Text}
    (next : input.next = (.ok (some line), rest))
    (comes : Effect.ofLine line rest = (effect, behind))
    (ok : effect.output options state.nesting state.anchors = .ok output) :
    Reaches options state input output.toList (effect.apply options rest state) behind := by
  have does := step_does options state line rest
  rw [comes] at does
  have turn := Reaches.turn next (does.output.trans ok) (.here _ _)
  rwa [does.state, does.input, List.append_nil] at turn

theorem apply_silent (options : Options) (place : Input) (state : State) :
    Effect.silent.apply options place state = state :=
  Effect.apply_of_cause? rfl options place

theorem reaches_of_silent (options : Options) (state : State)
    (next : input.next = (.ok (some line), rest))
    (silent : Effect.ofLine line rest = (.silent, behind)) :
    Reaches options state input [] state behind := by
  have reaches : Reaches options state input [] (Effect.silent.apply options rest state) behind :=
    reaches_of_effect next silent rfl
  rwa [apply_silent] at reaches

theorem apply_marginDecrease_marginIncrease (options : Options) (place place' : Input)
    (state : State) :
    Effect.marginDecrease.apply options place' (Effect.marginIncrease.apply options place state) =
      state := by
  obtain ⟨nesting, anchors, trailer, problems⟩ := state
  have covered : nesting.push.isBase = false := rfl
  have same : nesting.push.pop.2 = nesting := rfl
  simp [Effect.apply, Effect.nesting, Effect.anchors, Effect.trailer, Effect.cause?, covered, same]

theorem reaches_of_margin (options : Options) (state : State) {increase decrease : Text}
    (next : input.next = (.ok (some increase), rest))
    (next' : rest.next = (.ok (some decrease), behind))
    (increases : request? increase = some .marginIncrease)
    (decreases : request? decrease = some .marginDecrease) :
    Reaches options state input [] state behind := by
  obtain ⟨args, increase'⟩ := ofLine_of_request? increases
  obtain ⟨args', decrease'⟩ := ofLine_of_request? decreases
  let inner := Effect.marginIncrease.apply options rest state
  have first : Reaches options state input [] inner rest :=
    reaches_of_effect next (increase' rest) rfl
  have second : Reaches options inner rest [] _ behind :=
    reaches_of_effect next' (decrease' behind) rfl
  rw [apply_marginDecrease_marginIncrease] at second
  exact first.trans second

/-- A block is skipped up to the line that ends it, whatever it holds. -/
theorem skipBlock_outcome {body : List Text} {stop : Text} {left : List RawLine}
    (inside : ∀ line ∈ body, endsSkippedBlock line = false) (ends : endsSkippedBlock stop = true)
    (unread : input.unread = body.map .text ++ .text stop :: left) :
    (skipBlock input).outcome = (.ok none, input.past (body.length + 1) left) := by
  have upTo : Input.UpTo (endsSkippedBlock · = true) body (some stop) left := by
    refine ⟨fun line mem => Bool.eq_false_iff.mp (inside line mem), ?_, (nomatch ·)⟩
    rintro _ ⟨⟩
    exact ends
  have split : input.unread = (body ++ (some stop).toList).map .text ++ left := by
    rw [unread, Option.toList_some, List.map_append, List.append_assoc]
    rfl
  rw [skipBlock_eq_map, Input.readBlock_upTo upTo split, List.length_append]
  rfl

/-- A silent line does not change where the lines behind it lead. -/
theorem reaches_past_silent {lines : List Text} {left : List RawLine}
    (unread : input.unread = (line :: lines).map .text ++ left)
    (silent : ∀ rest, Effect.ofLine line rest = (.silent, rest))
    (later : ∀ {input : Input}, input.unread = lines.map .text ++ left →
      Reaches options state input [] state (input.past lines.length left)) :
    Reaches options state input [] state (input.past (line :: lines).length left) := by
  rw [List.length_cons, Nat.add_comm, ← Input.past_past]
  exact (reaches_of_silent options state (Input.next_of_cons unread) (silent _)).trans (later rfl)

/-- A run passes over lines that can be erased. -/
theorem Erasable.reaches {lines : List Text} (erasable : Erasable lines) (options : Options)
    (state : State) {left : List RawLine} (unread : input.unread = lines.map .text ++ left) :
    Reaches options state input [] state (input.past lines.length left) := by
  induction erasable generalizing input with
  | nil =>
    rw [← show input.unread = left from unread]
    exact .here state input
  | comment comment _ ih =>
    refine reaches_past_silent unread (fun rest => ?_) ih
    rw [Effect.ofLine, comment]
  | empty empty _ ih =>
    refine reaches_past_silent unread (fun rest => ?_) ih
    rw [Effect.ofLine, empty]
  | ignored ignored _ ih =>
    obtain ⟨args, silent⟩ := ofLine_of_request? ignored
    exact reaches_past_silent unread silent ih
  | @block start stop body lines skips inside ends _ ih =>
    obtain ⟨args, skip⟩ := ofLine_of_request? skips
    have split : input.unread =
        .text start :: (body.map .text ++ .text stop :: (lines.map .text ++ left)) := by
      simpa using unread
    have length : (start :: (body ++ stop :: lines)).length =
        1 + ((body.length + 1) + lines.length) := by
      simp only [List.length_cons, List.length_append]
      omega
    have silent (rest : Input)
        (unread : rest.unread = body.map .text ++ .text stop :: (lines.map .text ++ left)) :
        Effect.ofLine start rest =
          (.silent, rest.past (body.length + 1) (lines.map .text ++ left)) := by
      rw [skip, Effect.ofRequest, skipBlock_outcome inside ends unread]
      rfl
    rw [length, ← Input.past_past, ← Input.past_past]
    exact (reaches_of_silent options state (Input.next_of_cons split) (silent _ rfl)).trans (ih rfl)
  | @margin increase decrease lines increases decreases _ ih =>
    have length : (increase :: decrease :: lines).length = 1 + (1 + lines.length) := by
      simp only [List.length_cons]
      omega
    have next := Input.next_of_cons unread
    rw [length, ← Input.past_past, ← Input.past_past]
    exact (reaches_of_margin options state next (Input.next_of_cons rfl) increases decreases).trans
      (ih rfl)

/-! ### Conversions -/

/-- Behind more lines a run puts out the same, and its problems stand as many lines further on. -/
theorem run_moved (options : Options) (count : Nat)
    (above : ∀ problem ∈ state.problems, problem.line ≤ input.line) :
    let ran := run options state input
    let ran' := run options state (input.moved count)
    ran'.chunks = ran.chunks ∧ ran'.tail? = ran.tail? ∧ ran'.failure = ran.failure ∧
      ran'.state.problems = ran.state.problems.map (Problem.moved input.line count) := by
  intro ran ran'
  have start : state.Agrees (Problem.moved input.line count) state :=
    ⟨rfl, rfl, (Problem.map_moved above count).symm⟩
  obtain ⟨turns, failure, -, agrees⟩ :
      List.Forall₂ (Turn.Agrees options options (Problem.moved input.line count) count) ran.turns
        ran'.turns ∧ _ ∧ _ ∧ State.Agrees _ ran.state ran'.state :=
    run_agrees start fun problem below => if_pos below
  have trailer : ran'.state.trailer = ran.state.trailer := by
    have title : ran'.hasTitle = ran.hasTitle := any_agrees asksForTitle turns
    rw [run_trailer, run_trailer]
    show (if ran'.hasTitle then _ else _) = if ran.hasTitle then _ else _
    rw [title]
  refine ⟨chunks_agrees turns, ?_, failure, agrees.problems⟩
  unfold Run.tail? State.finish
  rw [failure, agrees.nesting, trailer]

theorem reaches_insert {name : Text} {before after : List RawLine} {inserted : List Text}
    (erasable : Erasable inserted) (more : after ≠ [])
    (comes : ComesTo options { name, unread := before ++ after } after) (options' : Options) :
    ∃ chunks state behind, behind.line = before.length ∧
      (∀ problem ∈ state.problems, problem.line ≤ behind.line) ∧
      Reaches options' {} { name, unread := before ++ after } chunks state behind ∧
      Reaches options' {} { name, unread := before ++ (inserted.map .text ++ after) } chunks state
        (behind.moved inserted.length) := by
  obtain ⟨_, _, behind, reaches, rfl⟩ := comes
  obtain ⟨chunks, state, way⟩ : ∃ chunks state, Reaches options' {} _ chunks state behind :=
    reaches.under options' ⟨rfl, rfl, rfl⟩
  obtain ⟨used, took, same⟩ := way.took
  have lines : before = used.map .text := List.append_cancel_right took.unread
  have number : behind.line = before.length := by
    rw [lines, List.length_map]
    exact took.line.trans (Nat.zero_add _)
  have long := (same more (inserted.map .text ++ behind.unread)).trans
    (erasable.reaches options' state rfl)
  rw [← lines, List.append_nil] at long
  exact ⟨chunks, state, behind, number, way.problems (by simp), way, long⟩

/-- Where the conversion of a page comes to the lines `after` itself, lines that can be erased may
be inserted in front of them, under any options: the output is the same, and so are the problems,
those behind the inserted lines with the numbers that their lines have there. -/
theorem convert_insert {name : Text} {before after : List RawLine} {inserted : List Text}
    (erasable : Erasable inserted) (more : after ≠ [])
    (comes : ComesTo options { name, unread := before ++ after } after) (options' : Options) :
    let plain : Input := { name, unread := before ++ after }
    let longer : Input := { name, unread := before ++ (inserted.map .text ++ after) }
    (convert options' longer).html = (convert options' plain).html ∧
      (convert options' longer).result = (convert options' plain).result.map
        (List.map (Problem.moved before.length inserted.length)) := by
  intro plain longer
  obtain ⟨chunks, state, behind, number, above, short, long⟩ :=
    reaches_insert erasable more comes options'
  obtain ⟨put, -, failure, final⟩ := short.run_eq
  obtain ⟨put', -, failure', final'⟩ := long.run_eq
  obtain ⟨same, tail, outcome, problems⟩ := run_moved options' inserted.length above
  constructor
  · have tails : (run options' {} longer).tail? = (run options' {} plain).tail? := by
      unfold Run.tail? at tail ⊢
      rw [failure, failure', final, final', tail]
    have chunks : (convert options' longer).chunks = (convert options' plain).chunks := by
      rw [convert_chunks, convert_chunks, tails]
      refine congrArg (· ++ _) ?_
      exact put'.trans ((congrArg _ same).trans put.symm)
    rw [Conversion.html, Conversion.html, chunks]
  · rw [result_convert, result_convert, failure, failure', final, final', outcome, problems, number]
    cases (run options' state behind).failure <;> rfl

/-- Lines of every kind, inserted behind the entry of a term, between two unknown requests. -/
theorem convert_insert_term :
    let before := [".TP", "t", ".XX"].map fun line => RawLine.text line.toList
    let after := [".YY", "x"].map fun line => RawLine.text line.toList
    let inserted := [".\\\" c", ".", ".ad l", ".de M", ".XX", "..", ".RS", ".RE"].map String.toList
    let longer : Input := { name := [], unread := before ++ (inserted.map .text ++ after) }
    Erasable inserted ∧ after ≠ [] ∧ ComesTo {} { name := [], unread := before ++ after } after ∧
      (convert {} longer).html = "<dl><dt>t</dt><dd>\nx\n</dd></dl>\n".toList ∧
      (convert {} longer).result =
        .ok [⟨[], 3, .unknownRequest ['X', 'X']⟩, ⟨[], 12, .unknownRequest ['Y', 'Y']⟩] := by
  intro before after inserted longer
  have erasable : Erasable inserted :=
    .comment (by decide) <| .empty (by decide) <| .ignored (by decide) <|
      @Erasable.block _ _ [".XX".toList] _ (by decide) (by decide) (by decide) <|
        .margin (by decide) (by decide) .nil
  have comes : ComesTo {} { name := [], unread := before ++ after } after :=
    comesTo_iff_turn.mpr (by decide +kernel)
  obtain ⟨html, result⟩ := convert_insert erasable (by decide) comes {}
  exact ⟨erasable, by decide, comes, html.trans (by decide +kernel),
    result.trans (by decide +kernel)⟩

end Document

end ManPage
