import ManPage.Proofs.Document.Pieces
import ManPage.Proofs.Document.Reading
import ManPage.Proofs.Nesting

/-! The HTML of a step. What a line puts out, front matter aside, leads from the elements that are
open in the regions of the document before it to those that are open behind it, and holds a heading
for each identifier that is given out on the way. -/

namespace ManPage.Document

open Markup Inline

variable {options : Options} {state mid after : State} {line : Text} {input rest : Input}
  {output : Option Text}

/-- `html` leads from one state of a document to another: from the open elements of the first to
those of the second, with a heading for each identifier that is given out between them, which is a
new one. -/
structure State.Leads (state : State) (html : Text) (after : State) (new : List Text) : Prop where
  given : after.anchors.given = new ++ state.anchors.given
  distinct : state.anchors.given.Nodup → after.anchors.given.Nodup
  nests : Nests state.nesting.opened html after.nesting.opened (new.reverse.map attributeValue)

/-- What a step puts out leads from the state before it to the one behind it. -/
def Step.Leads (state : State) (step : Step) : Prop :=
  ∀ output, step.output = .ok output → ∃ new, state.Leads (output.getD []) step.state new

theorem State.Leads.append {first second : Text} {new new' : List Text}
    (hf : state.Leads first mid new) (hs : mid.Leads second after new') :
    state.Leads (first ++ second) after (new' ++ new) := by
  refine ⟨?_, fun distinct => hs.distinct (hf.distinct distinct), ?_⟩
  · rw [hs.given, hf.given, List.append_assoc]
  · rw [List.reverse_append, List.map_append]
    exact hf.nests.join hs.nests

/-- HTML without headings leads between states that have given out the same identifiers. -/
theorem State.Leads.plain {html : Text} (same : after.anchors = state.anchors)
    (nests : Nests state.nesting.opened html after.nesting.opened) :
    state.Leads html after [] := by
  refine ⟨?_, fun distinct => ?_, nests⟩
  · rw [same]
    rfl
  · rwa [same]

theorem Step.Leads.plain {step : Step} (same : step.state.anchors = state.anchors)
    (nests : ∀ output, step.output = .ok output →
      Nests state.nesting.opened (output.getD []) step.state.nesting.opened) :
    step.Leads state :=
  fun output ok => ⟨[], .plain same (nests output ok)⟩

/-! ### Requests -/

theorem ofRead_leads {read : Read (Option Text)}
    (h : ∀ html, read.value = .ok (some html) →
      Nests state.nesting.opened html state.nesting.opened) :
    (ofRead state read).Leads state := by
  refine .plain rfl fun output ok => ?_
  cases output with
  | none => exact .nil
  | some html => exact h html ok

theorem paragraphBreak_leads (state : State) (input : Input) :
    (paragraphBreak state input).Leads state := by
  have start : "<p>".toList = Element.p.start := rfl
  refine .plain rfl fun output ok => ?_
  obtain rfl : some (state.nesting.closeRegion.1 ++ "<p>".toList) = output := by
    simpa [paragraphBreak, Step.emit] using ok
  rw [Option.getD_some, start]
  exact state.nesting.nests_closeRegion.append (.looseStart rfl)

theorem heading_leads (level : HeadingLevel) (state : State) (args : List Text) (input : Input) :
    (heading level state args input).Leads state := by
  intro output ok
  unfold heading at ok ⊢
  dsimp only at ok ⊢
  split
  · rename_i text value
    simp only [value, Except.ok.injEq] at ok
    subst ok
    have html := neutral_render text
    have identifier := state.anchors.escaped_register (html []).isHtml
    refine ⟨[(state.anchors.register (render text)).1], rfl, fun distinct => ?_, ?_⟩
    · exact List.nodup_cons.mpr ⟨state.anchors.register_not_mem (render text), distinct⟩
    · exact state.nesting.nests_closeRegion.join
        (nests_renderHeading level identifier html (Nesting.anchor_not_mem_opened _))
  · rename_i other
    cases output with
    | none => exact ⟨[], .plain rfl .nil⟩
    | some html =>
      split at ok
      · rename_i text value
        exact absurd value (other text)
      · exact absurd ok (other html)

/-- An entry of a list leads into the list. Its text stands between `before` and `after`, inside
the elements `inner` of the list. -/
theorem entry_leads {region : Region} {list item : Element} (h : region.IsListOf list item)
    (inner : List Element) {before after : Text}
    (first : ∀ outer, Nests (list :: outer) before (inner ++ list :: outer))
    (last : ∀ outer, Nests (inner ++ list :: outer) after (item :: list :: outer))
    (noAnchor : .a ∉ list :: inner) (state : State) (input : Input) :
    (entry region before after state input).Leads state := by
  refine .plain rfl fun output ok => ?_
  obtain ⟨start, opened⟩ := state.nesting.nests_enterEntry h
  obtain ⟨html, value, rfl⟩ : ∃ html, (readEntry input).value = .ok html ∧
      some ((state.nesting.enterEntry region).1 ++ before ++ html.getD [] ++ after) = output := by
    unfold entry at ok
    cases value : (readEntry input).value with
    | error error => simp [value, Except.map] at ok
    | ok html => exact ⟨html, rfl, by simpa [value, Except.map] using ok⟩
  have outside : .a ∉ inner ++ list :: Region.opened state.nesting.outer := by
    have outer := Region.anchor_not_mem_opened state.nesting.outer
    simp only [List.mem_cons, not_or] at noAnchor
    simp [noAnchor.1, noAnchor.2, outer]
  have text : Nests (inner ++ list :: Region.opened state.nesting.outer) (html.getD [])
      (inner ++ list :: Region.opened state.nesting.outer) := by
    cases html with
    | none => exact .nil
    | some html => exact nests_of_readEntry outside value
  show Nests _ _ (state.nesting.enterEntry region).2.opened
  rw [opened]
  exact ((start.append (first _)).append text).append (last _)

theorem term_leads (state : State) (input : Input) :
    (entry .definitions "<dt>".toList "</dt><dd>".toList state input).Leads state := by
  have start : "<dt>".toList = Element.dt.start := rfl
  have stop : "</dt><dd>".toList = Element.dt.stop ++ Element.dd.start := rfl
  refine entry_leads Region.isListOf_definitions [.dt] (fun outer => ?_) (fun outer => ?_)
    (by decide) state input
  · rw [start]
    exact .start rfl rfl
  · rw [stop]
    exact Nests.append (.stop rfl) (.start rfl rfl)

theorem bullet_leads (state : State) (input : Input) :
    (entry .bullets "<li>".toList [] state input).Leads state := by
  have start : "<li>".toList = Element.li.start := rfl
  refine entry_leads Region.isListOf_bullets [.li] (fun outer => ?_) (fun outer => .nil)
    (by decide) state input
  rw [start]
  exact .start rfl rfl

theorem indentedParagraph_leads (state : State) (args : List Text) (input : Input) :
    (indentedParagraph state args input).Leads state := by
  unfold indentedParagraph
  split
  · exact bullet_leads state input
  · exact paragraphBreak_leads state input

theorem getD_nonempty? (text : Text) : (Text.nonempty? text).getD [] = text := by
  cases text <;> rfl

theorem marginDecrease_leads (state : State) (input : Input) :
    (marginDecrease state input).Leads state := by
  have outcome : (marginDecrease state input).output =
        .ok (Text.nonempty? state.nesting.pop.1.closing) ∧
      (marginDecrease state input).state.nesting = state.nesting.pop.2 ∧
      (marginDecrease state input).state.anchors = state.anchors := by
    unfold marginDecrease
    dsimp only
    split <;> exact ⟨rfl, rfl, rfl⟩
  obtain ⟨written, nesting, anchors⟩ := outcome
  refine .plain anchors fun output ok => ?_
  rw [written] at ok
  cases ok
  rw [getD_nonempty?, nesting]
  exact state.nesting.nests_pop

theorem emit_leads {html : Text} (neutral : Neutral html) (state : State) (input : Input) :
    (Step.emit (some html) state input).Leads state := by
  refine .plain rfl fun output ok => ?_
  cases ok
  exact neutral _

theorem silent_leads {step : Step} (silent : step.output = .ok none)
    (opened : step.state.nesting.opened = state.nesting.opened)
    (anchors : step.state.anchors = state.anchors) : step.Leads state := by
  refine .plain anchors fun output ok => ?_
  rw [silent] at ok
  cases ok
  rw [opened]
  exact .nil

theorem title_leads (state : State) (args : List Text) (input : Input)
    (body : options.mode ≠ .jekyll) : (title options state args input).Leads state := by
  refine .plain rfl fun output ok => ?_
  show Nests state.nesting.opened _ state.nesting.opened
  unfold title Title.head? at ok
  cases mode : options.mode with
  | html =>
    obtain rfl : some (Title.ofArgs args).htmlHead = output := by simpa [mode] using ok
    exact Title.neutral_htmlHead args _
  | jekyll => exact absurd mode body
  | raw =>
    obtain rfl : none = output := by simpa [mode] using ok
    exact .nil

theorem table_leads (state : State) (name : Text) (args : List Text) (input : Input) :
    (perform options state .table name args input).Leads state := by
  refine .plain rfl fun output ok => ?_
  show Nests state.nesting.opened _ state.nesting.opened
  unfold perform at ok
  dsimp only at ok
  cases value : (Table.read input).value with
  | error error => simp [value, Except.map] at ok
  | ok html =>
    obtain rfl : some html = output := by simpa [value, Except.map] using ok
    exact Table.neutral_of_read value _

theorem perform_leads (options : Options) (state : State) (request : Request) (name : Text)
    (args : List Text) (input : Input) (body : options.mode = .jekyll → request ≠ .title) :
    (perform options state request name args input).Leads state := by
  have lineBreak : "<br>".toList = Element.br.start := rfl
  have preStart : "<pre>".toList = Element.pre.start := rfl
  have preStop : "</pre>".toList = Element.pre.stop := rfl
  cases request with
  | title => exact title_leads state args input fun mode => body mode rfl
  | heading level => exact heading_leads level state args input
  | paragraph => exact paragraphBreak_leads state input
  | indentedParagraph => exact indentedParagraph_leads state args input
  | marginIncrease => exact silent_leads rfl state.nesting.opened_push rfl
  | marginDecrease => exact marginDecrease_leads state input
  | term => exact term_leads state input
  | font font => exact ofRead_leads fun html value => neutral_of_readFont value _
  | alternatingFonts first second =>
    refine ofRead_leads fun html value => ?_
    simp only [readAlternate, Except.ok.injEq, Option.some.injEq] at value
    subst value
    exact neutral_alternate first second args _
  | lineBreak =>
    unfold perform
    rw [lineBreak]
    exact emit_leads (fun _ => .looseStart rfl) state input
  | preformattedStart =>
    unfold perform
    rw [preStart]
    exact emit_leads (fun _ => .looseStart rfl) state input
  | preformattedEnd =>
    unfold perform
    rw [preStop]
    exact emit_leads (fun _ => .looseStop rfl) state input
  | ignored => exact silent_leads rfl rfl rfl
  | skippedBlock =>
    refine ofRead_leads fun html value => ?_
    unfold skipBlock at value
    dsimp only at value
    split at value <;> cases value
  | table => exact table_leads state name args input

/-! ### Lines -/

/-- What a line puts out, front matter aside, leads from the state of the document before it to the
one behind it. -/
theorem step_leads (options : Options) (state : State) (line : Text) (input : Input)
    (body : options.mode = .jekyll → asksForTitle line = false) :
    (step options state line input).Leads state := by
  unfold step
  split
  · exact paragraphBreak_leads state input
  · rename_i content _
    refine .plain rfl fun output ok => ?_
    obtain rfl : some (renderLine content) = output := Except.ok.inj ok
    rw [Option.getD_some]
    exact nests_renderLine content state.nesting.anchor_not_mem_opened
  · exact silent_leads rfl rfl rfl
  · exact silent_leads rfl rfl rfl
  · rename_i name args request
    unfold dispatch
    split
    · rename_i known name?
      refine perform_leads options state known name args input fun mode => ?_
      rintro rfl
      have other := body mode
      simp [asksForTitle, request, name?] at other
    · exact silent_leads rfl rfl rfl

/-- The title of the page changes neither the regions nor the anchors. -/
theorem leads_of_title (options : Options) (state : State) (input : Input)
    (h : asksForTitle line) : state.Leads [] (step options state line input).state [] := by
  unfold asksForTitle at h
  split at h
  · rename_i name args request
    have known : Request.ofName? name = some .title := by simpa using h
    have same : (step options state line input).state =
        { state with trailer := Title.trailer? options } := by
      unfold step
      rw [request]
      dsimp only [dispatch]
      rw [known]
      rfl
    rw [same]
    exact .plain rfl .nil
  · cases h

theorem turn_leads (ok : (step options state line rest).output = .ok output) :
    ∃ new, state.Leads (((turnOf options state line rest).html? options).getD [])
      (step options state line rest).state new := by
  unfold Turn.html?
  by_cases front : (turnOf options state line rest).isFrontMatter options = true
  · have request : asksForTitle line = true := (Bool.and_eq_true_iff.mp front).2
    rw [if_pos front]
    exact ⟨[], leads_of_title options state rest request⟩
  · have piece : (turnOf options state line rest).output? = output := by
      simp only [Turn.output?, turnOf, ok]
    rw [if_neg front, piece]
    refine step_leads options state line rest (fun mode => ?_) output ok
    by_cases request : asksForTitle line = true
    · exact absurd (Bool.and_eq_true_iff.mpr ⟨by simp [mode], request⟩) front
    · simpa using request

end ManPage.Document
