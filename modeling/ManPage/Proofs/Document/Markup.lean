import ManPage.Proofs.Document.Nested
import ManPage.Proofs.Document.Title

/-! The HTML of a document. The steps of a session lead one after another from the open elements of
the document before them to those behind them, and the end of the document closes what is left
open. -/

namespace ManPage.Document

open Markup

variable {options : Options} {state after : State}

/-! ### Sessions -/

/-- A piece of output leads where it does also with the end of its line. -/
theorem nests_joinLines {before opened : List Element} {piece : Option Text} {ids : List Text}
    (h : Nests before (piece.getD []) opened ids) :
    Nests before (joinLines piece.toList) opened ids := by
  cases piece with
  | none => exact h
  | some html =>
    have line := h.join (neutral_newline opened)
    rw [List.append_nil] at line
    show Nests before (joinLines [html]) opened ids
    rw [joinLines_cons, ← List.append_nil ids]
    exact line.join .nil

/-- The steps of a session lead from its first state to its last. -/
theorem Session.leads {turns : List Turn} (session : Session options state turns after) :
    ∃ new, state.Leads (joinLines (turns.filterMap (Turn.html? options))) after new := by
  induction session with
  | nil state => exact ⟨[], .plain rfl .nil⟩
  | @cons state after line rest output turns ok later ih =>
    obtain ⟨first, head⟩ := turn_leads ok
    obtain ⟨second, tail⟩ := ih
    -- A line that puts out nothing, or front matter, adds no piece.
    have piece : state.Leads (joinLines ((turnOf options state line rest).html? options).toList)
        (step options state line rest).state first :=
      ⟨head.given, head.distinct, nests_joinLines head.nests⟩
    refine ⟨second ++ first, ?_⟩
    rw [joinLines_filterMap_cons]
    exact piece.append tail

/-! ### The end of a document -/

/-- What stands at the end of a document is the end of a page, or nothing. -/
def State.HasPageTrailer (state : State) : Prop :=
  state.trailer = none ∨ state.trailer = some Title.htmlTrailer

theorem Session.hasPageTrailer {turns : List Turn} (session : Session options state turns after)
    (start : state.HasPageTrailer) : after.HasPageTrailer := by
  refine session.invariant (fun state line rest output trailer _ => ?_) start
  unfold State.HasPageTrailer
  rw [trailer_step]
  split
  · unfold Title.trailer?
    cases options.mode with
    | html => exact .inr rfl
    | jekyll => exact .inl rfl
    | raw => exact .inl rfl
  · exact trailer

/-- The end of a document is the tags that close its open elements, and the end of a page. -/
theorem nests_finish (trailer : state.HasPageTrailer) :
    nestedTags (state.finish.1.getD []) = state.nesting.opened.map .closing ∧
      Nests state.nesting.opened (state.finish.1.getD []) [] := by
  have nested : ∀ element ∈ state.nesting.opened, element.isLoose = false :=
    fun element mem => (Region.nested_opened element mem).1
  have stops : Nests state.nesting.opened (state.nesting.opened.flatMap Element.stop) [] := by
    have close := nests_stops [] nested
    rwa [List.append_nil] at close
  have tags := nestedTags_stops nested
  unfold State.finish
  dsimp only
  rw [getD_nonempty?, Nesting.closeAll_eq]
  rcases trailer with absent | page
  · rw [absent]
    exact ⟨tags, stops⟩
  · rw [page]
    dsimp only
    split
    · rename_i empty
      have closed := List.isEmpty_iff.mp empty
      rw [closed] at tags stops
      rw [← tags, Title.nestedTags_htmlTrailer]
      refine ⟨rfl, ?_⟩
      rw [← List.nil_append Title.htmlTrailer]
      exact stops.append (Title.neutral_htmlTrailer _)
    · -- Behind closing tags the end of a page begins a new line.
      have page : Nests [] ('\n' :: Title.htmlTrailer) [] :=
        (neutral_newline _).append (Title.neutral_htmlTrailer _)
      refine ⟨?_, stops.append page⟩
      have newline : nestedTags ('\n' :: Title.htmlTrailer) = [] := rfl
      rw [stops.isHtml.nestedTags_append, tags, newline, List.append_nil]

theorem nests_tail {run : Run} (success : run.failure = none)
    (trailer : run.state.HasPageTrailer) :
    Nests run.state.nesting.opened (joinLines run.tail?.toList) [] := by
  rw [Run.tail?, if_pos success]
  exact nests_joinLines (nests_finish trailer).2

/-! ### Conversions -/

/-- A conversion of a text does not fail. -/
theorem run_ofText (options : Options) (name text : Text) :
    (run options {} (.ofText name text)).failure = none := by
  cases stopped : (run options {} (.ofText name text)).failure with
  | none => rfl
  | some error =>
    obtain ⟨used, took, -⟩ := run_of_failure options {} _ stopped
    have fault : RawLine.fault error ∈ (Input.ofText name text).unread := by
      rw [took.unread]
      simp
    obtain ⟨line, -, eq⟩ := List.mem_map.mp fault
    cases eq

/-- No page can put markup into the output: what a conversion puts out, front matter aside, is a
sequence of characters that are no markup, entities of the output, and tags of the known elements
whose attribute values hold no markup. -/
theorem isHtml_of_convert (options : Options) (input : Input) :
    let run := run options {} input
    (convert options input).chunks =
      run.turns.filterMap Turn.output? ++ run.tail?.toList ∧
    ∀ html ∈ run.htmlChunks options, IsHtml html := by
  intro run
  refine ⟨convert_chunks options input, fun html mem => ?_⟩
  rcases List.mem_append.mp mem with line | tail
  · obtain ⟨turn, read, written⟩ := List.mem_filterMap.mp line
    obtain ⟨before, line, rest, rfl⟩ := turns_of_run options {} input turn read
    cases outcome : (step options before line rest).output with
    | error error =>
      have silent : (turnOf options before line rest).output? = none := by
        simp only [Turn.output?, turnOf, outcome]
      rw [Turn.html?, silent] at written
      split at written <;> cases written
    | ok output =>
      obtain ⟨new, leads⟩ := turn_leads outcome
      have html := leads.nests.isHtml
      rwa [written] at html
  · have success : run.failure = none := by
      cases failed : run.failure with
      | none => rfl
      | some error =>
        rw [Run.tail?, failed] at tail
        simp at tail
    have trailer := (run_session options {} input success).hasPageTrailer (.inl rfl)
    have finish := (nests_finish trailer).2.isHtml
    rw [Run.tail?, if_pos success, Option.mem_toList] at tail
    rwa [show run.state.finish.1 = some html from tail] at finish

/-- A page that asks for a script in bold shows the text of its tags. -/
theorem isHtml_of_convert_script :
    let run := run {} {} (.ofText [] ".B <script>\n".toList)
    let html := "<b>&lt;script&gt;</b>".toList
    html ∈ run.htmlChunks {} ∧ IsHtml html := by
  intro run html
  have mem : html ∈ run.htmlChunks {} := by decide +kernel
  exact ⟨mem, (isHtml_of_convert {} _).2 html mem⟩

/-- The nested elements of a page, those around its body and front matter aside: their tags are
balanced, entries stand in their lists and no anchor stands in another; behind any session the
elements that are open are those of the regions of the document, from the outermost to the current
one, and the end of the document closes these, the innermost first. -/
theorem nested_output (options : Options) :
    (∀ name text, let run := run options {} (.ofText name text)
      run.failure = none ∧
      (convert options (.ofText name text)).chunks =
        run.turns.filterMap Turn.output? ++ run.tail?.toList ∧
      nest? [] (nestedTags (joinLines (run.htmlChunks options))) = some []) ∧
    ∀ turns state, Session options {} turns state →
      nest? [] (nestedTags (joinLines (turns.filterMap (Turn.html? options)))) =
        some state.nesting.elements.reverse ∧
      nestedTags (state.finish.1.getD []) = state.nesting.elements.reverse.map .closing := by
  constructor
  · intro name text run
    have success := run_ofText options name text
    have session := run_session options {} _ success
    obtain ⟨new, leads⟩ := session.leads
    have page := leads.nests.join (nests_tail success (session.hasPageTrailer (.inl rfl)))
    rw [← joinLines_append] at page
    exact ⟨success, convert_chunks options _, page.walk⟩
  · intro turns state session
    obtain ⟨new, leads⟩ := session.leads
    rw [Nesting.reverse_elements]
    exact ⟨leads.nests.walk, (nests_finish (session.hasPageTrailer (.inl rfl))).1⟩

/-- Behind a term a list of definitions is open, with the text of an entry. -/
theorem nested_output_term :
    let rest : Input := { name := [], unread := [.text ['x']] }
    let turn := turnOf {} {} ['.', 'T', 'P'] rest
    Session {} {} [turn] turn.step.state ∧ turn.step.state.nesting.elements = [.dl, .dd] ∧
      nest? [] (nestedTags (joinLines ([turn].filterMap (Turn.html? {})))) =
        some [.dd, .dl] := by
  intro rest turn
  have entered : turn.step.state.nesting.elements = [.dl, .dd] := by decide +kernel
  have ok : turn.step.output = .ok (some "<dl><dt>x</dt><dd>".toList) := by decide +kernel
  have session : Session {} {} [turn] turn.step.state := .cons ok (.nil _)
  refine ⟨session, entered, ?_⟩
  rw [((nested_output {}).2 _ _ session).1, entered]
  rfl

end ManPage.Document
