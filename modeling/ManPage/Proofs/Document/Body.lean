import ManPage.Proofs.Document.Effect
import ManPage.Proofs.Document.Nested

/-! The body of a page. Whatever the text of a line is, what the line puts out holds none of the
tags that stand around the body, unless the line asks for the title. -/

namespace ManPage

namespace Markup

open Inline

/-- HTML without tags of those around the body of a document. -/
structure IsBody (html : Text) : Prop where
  isHtml : IsHtml html
  inside : ∀ inside ∈ tags html, inside ∉ pageTags

namespace IsBody

theorem nil : IsBody [] :=
  ⟨isHtml_nil, fun _ mem => absurd mem List.not_mem_nil⟩

theorem append {first second : Text} (hf : IsBody first) (hs : IsBody second) :
    IsBody (first ++ second) := by
  refine ⟨hf.isHtml.append hs.isHtml, fun inside mem => ?_⟩
  rw [hf.isHtml.tags_append] at mem
  rcases List.mem_append.mp mem with mem | mem
  · exact hf.inside inside mem
  · exact hs.inside inside mem

theorem flatMap {α : Type} {list : List α} {f : α → Text} (h : ∀ a ∈ list, IsBody (f a)) :
    IsBody (list.flatMap f) := by
  induction list with
  | nil => exact nil
  | cons a list ih =>
    rw [List.flatMap_cons]
    exact (h a List.mem_cons_self).append (ih fun b mem => h b (List.mem_cons_of_mem a mem))

theorem escaped {text : Text} (h : Escaped text) : IsBody text := by
  refine ⟨h.isHtml, fun inside mem => ?_⟩
  rw [tags_of_not_mem h.no_opening] at mem
  cases mem

theorem newline : IsBody ['\n'] :=
  escaped (escaped_of_plain (by decide))

theorem tag {inside : Text} (h : IsTag inside) (other : inside ∉ pageTags) :
    IsBody ('<' :: inside ++ ['>']) := by
  refine ⟨isHtml_tag h, fun inside' mem => ?_⟩
  rw [tags_tag_append h []] at mem
  rwa [List.mem_singleton.mp mem]

theorem names : ∀ element ∈ Element.all,
    element.name ∉ pageTags ∧ '/' :: element.name ∉ pageTags := by
  decide

theorem start (element : Element) : IsBody element.start :=
  tag (.opening element) (names element (Element.mem_all element)).1

theorem stop (element : Element) : IsBody element.stop :=
  tag (.closing element) (names element (Element.mem_all element)).2

end IsBody

/-- The tags around a body are told from those of anchors and headings by how they begin. -/
theorem not_mem_pageTags {first second : Char} (rest : Text)
    (other : [first, second] ∈ ["a ", "h2", "h3"].map String.toList) :
    first :: second :: rest ∉ pageTags := by
  have starts : ∀ tag ∈ pageTags, tag.take 2 ∉ ["a ", "h2", "h3"].map String.toList := by decide
  exact fun mem => starts _ mem other

end Markup

open Markup

/-! ### Texts -/

namespace Inline

theorem fontTags_not_mem_pageTags : ∀ inside ∈ Font.tags, inside ∉ pageTags := by
  decide

theorem IsPhrase.isBody {html : Text} (h : IsPhrase html) : IsBody html := by
  refine ⟨h.isHtml, fun inside mem => ?_⟩
  cases h.inside inside mem with
  | font known => exact fontTags_not_mem_pageTags inside known
  | link address => exact not_mem_pageTags _ (by decide)
  | stop => decide

theorem isBody_link {value : Text} (h : IsAttributeValue value) :
    IsBody ('<' :: ("a href=\"".toList ++ value ++ ['"']) ++ ['>']) :=
  .tag (.link h) (not_mem_pageTags _ (by decide))

end Inline

/-! ### Regions and tables -/

namespace Region

theorem isBody_closing (region : Region) : IsBody region.closing := by
  rw [closing_eq]
  exact .flatMap fun element _ => .stop element

theorem isBody_opening (region : Region) : IsBody region.opening := by
  cases region with
  | paragraph => exact .nil
  | definitions => exact .start .dl
  | bullets => exact .start .ul

theorem isBody_separator (region : Region) : IsBody region.separator := by
  cases region with
  | paragraph => exact .nil
  | definitions => exact .stop .dd
  | bullets => exact .stop .li

end Region

theorem Nesting.isBody_enterEntry (nesting : Nesting) (region : Region) :
    IsBody (nesting.enterEntry region).1 := by
  unfold enterEntry
  split
  · exact region.isBody_separator
  · exact nesting.current.isBody_closing.append region.isBody_opening

namespace Table

theorem isBody_renderCell (cell : Text) (element : Element) :
    IsBody (renderCell element.name cell) := by
  rw [renderCell_eq]
  exact ((IsBody.start element).append (Inline.isPhrase_render cell).isBody).append (.stop element)

theorem isBody_renderRow (format : Format) (index : Nat) (line : Text) :
    IsBody (renderRow format index line) := by
  refine ((IsBody.start .tr).append (.flatMap fun cell _ => ?_)).append (.stop .tr)
  rcases cellTag_eq format index with tag | tag
  · rw [tag]
    exact isBody_renderCell cell .th
  · rw [tag]
    exact isBody_renderCell cell .td

theorem isBody_render (format : Format) (body : List Text) : IsBody (render format body) := by
  have opening : IsBody (opening format) := by
    unfold Table.opening
    split
    · exact .tag .centeredTable (by decide)
    · exact .start .table
  refine (opening.append (.flatMap fun row mem => ?_)).append
    (IsBody.newline.append (.stop .table))
  obtain ⟨index, -, rfl⟩ := List.mem_mapIdx.mp mem
  exact IsBody.newline.append (isBody_renderRow format index _)

end Table

/-! ### Lines -/

namespace Document

theorem isBody_renderHeading (level : HeadingLevel) {identifier html : Text}
    (escaped : Escaped identifier) (body : IsBody html) :
    IsBody (renderHeading level identifier html) := by
  have value := isAttributeValue_attributeValue escaped
  have start : IsBody ('<' :: headingInside level (attributeValue identifier) ++ ['>']) := by
    refine .tag (.heading level value) ?_
    rw [headingInside_eq]
    cases level with
    | «section» => exact not_mem_pageTags _ (by decide)
    | subsection => exact not_mem_pageTags _ (by decide)
  have link := isAttributeValue_fragment escaped
  rw [renderHeading_eq]
  exact start.append ((((Inline.isBody_link link).append body).append (.stop .a)).append
    (.stop level.element))

namespace Effect

/-- An effect that puts out the body of a page only. -/
def PutsBody : Effect → Prop
  | .html piece => IsBody piece
  | .entry _ before piece after => IsBody before ∧ IsBody piece ∧ IsBody after
  | .title _ => False
  | _ => True

theorem PutsBody.output {effect : Effect} (body : effect.PutsBody) {options : Options}
    {nesting : Nesting} {anchors : Anchors} {output : Option Text}
    (ok : effect.output options nesting anchors = .ok output) : IsBody (output.getD []) := by
  cases effect with
  | html piece =>
    cases ok
    exact body
  | paragraph =>
    cases ok
    exact nesting.current.isBody_closing.append (.start .p)
  | heading level text =>
    cases ok
    have html := (Inline.isPhrase_render text).isBody
    exact nesting.current.isBody_closing.append
      (isBody_renderHeading level (anchors.escaped_register html.isHtml) html)
  | entry region before piece after =>
    cases ok
    obtain ⟨start, text, stop⟩ := body
    exact (((nesting.isBody_enterEntry region).append start).append text).append stop
  | marginDecrease =>
    cases ok
    rw [getD_nonempty?]
    exact nesting.pop.1.isBody_closing
  | title args => exact body.elim
  | fault error entered => cases ok
  | _ =>
    cases ok
    exact .nil

theorem putsBody_ofOutcome {α : Type} {entered : Option Region} {effect : α → Effect}
    {outcome : Except ReadError α × Input}
    (h : ∀ value, outcome.1 = .ok value → (effect value).PutsBody) :
    (ofOutcome entered effect outcome).1.PutsBody := by
  rcases outcome with ⟨error | value, input⟩
  · exact True.intro
  · exact h value rfl

theorem putsBody_ofPiece {piece : Option Text} (h : ∀ html, piece = some html → IsBody html) :
    (ofPiece piece).PutsBody := by
  cases piece with
  | none => exact True.intro
  | some html => exact h html rfl

theorem putsBody_ofRequest {request : Request} (other : request ≠ .title) (args : List Text)
    (input : Input) : (ofRequest request args input).1.PutsBody := by
  cases request with
  | title => exact absurd rfl other
  | heading level => exact putsBody_ofOutcome fun text? _ => by cases text? <;> exact True.intro
  | indentedParagraph =>
    unfold ofRequest
    dsimp only
    split
    · exact putsBody_ofOutcome fun _ value => ⟨.start .li, (isPhrase_of_readEntry value).isBody, .nil⟩
    · exact True.intro
  | term =>
    exact putsBody_ofOutcome fun _ value =>
      ⟨.start .dt, (isPhrase_of_readEntry value).isBody, (IsBody.stop .dt).append (.start .dd)⟩
  | font font =>
    refine putsBody_ofOutcome fun piece value => putsBody_ofPiece ?_
    rintro html rfl
    obtain ⟨text, eq⟩ := eq_of_readFont value
    rw [eq]
    exact ((Inline.isPhrase_render text).wrap font).isBody
  | alternatingFonts first second => exact (Inline.isPhrase_alternate first second args).isBody
  | lineBreak => exact IsBody.start .br
  | preformattedStart => exact IsBody.start .pre
  | preformattedEnd => exact IsBody.stop .pre
  | skippedBlock =>
    refine putsBody_ofOutcome fun piece value => putsBody_ofPiece ?_
    rintro html rfl
    unfold skipBlock at value
    dsimp only at value
    split at value <;> cases value
  | table =>
    refine putsBody_ofOutcome fun html value => ?_
    obtain ⟨format, body, rfl⟩ := Table.eq_of_read value
    exact Table.isBody_render format body
  | _ => exact True.intro

/-- A line that does not ask for the title puts out the body of a page only. -/
theorem putsBody_ofLine {line : Text} (other : asksForTitle line = false) (input : Input) :
    (ofLine line input).1.PutsBody := by
  unfold asksForTitle at other
  unfold ofLine
  cases class_ : Line.classify line with
  | text content => exact (Inline.isPhrase_renderLine content).isBody
  | request name args =>
    rw [class_] at other
    dsimp only at other ⊢
    cases known : Request.ofName? name with
    | some request =>
      refine putsBody_ofRequest (fun title => ?_) args input
      rw [known, title] at other
      cases other
    | none => exact True.intro
  | _ => exact True.intro

end Effect

end Document

end ManPage
