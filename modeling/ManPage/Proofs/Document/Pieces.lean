import ManPage.Proofs.Anchor
import ManPage.Proofs.Inline.Link

/-! The pieces of HTML that requests put out: the tags around the body of a page, tables, headings
and the entries of lists. Each closes what it opens. -/

namespace ManPage

open Markup Inline

/-! ### Tags around the body of a page -/

theorem neutral_page {inside : Text} (known : inside ∈ pageTags) :
    Neutral ('<' :: inside ++ ['>']) :=
  fun _ => .page known

theorem neutral_line {html : Text} (h : Neutral html) : Neutral (html ++ ['\n']) :=
  h.append neutral_newline

namespace Title

theorem escaped_displayName (args : List Text) : Escaped (ofArgs args).displayName := by
  have title : Escaped (ofArgs args).title := by
    simp only [ofArgs]
    exact escaped_escape _
  have sectionNumber : Escaped (ofArgs args).sectionNumber := by
    simp only [ofArgs]
    exact escaped_escape _
  have closing : Escaped [')'] := escaped_of_plain (by decide)
  unfold displayName
  split
  · exact title
  · exact (title.append (.cons (by decide) sectionNumber)).append closing

/-- The tags in front of the name of a page, each on its line, and those behind it. -/
theorem htmlHead_eq (title : Title) : title.htmlHead =
    ((pageTags.take 4).flatMap fun inside => '<' :: inside ++ ['>'] ++ ['\n']) ++
      ('<' :: "title".toList ++ ['>']) ++ title.displayName ++ " manual page".toList ++
      ((["/title", "/head"].map String.toList).flatMap fun inside =>
        '<' :: inside ++ ['>'] ++ ['\n']) ++ ('<' :: "body".toList ++ ['>']) := by
  have front : "<!DOCTYPE html>\n<html xmlns=\"".toList ++ namespaceAddress ++
      "\">\n<head>\n<meta charset=\"utf-8\" />\n<title>".toList =
      ((pageTags.take 4).flatMap fun inside => '<' :: inside ++ ['>'] ++ ['\n']) ++
        ('<' :: "title".toList ++ ['>']) := rfl
  have behind : " manual page</title>\n</head>\n<body>".toList = " manual page".toList ++
      ((["/title", "/head"].map String.toList).flatMap fun inside =>
        '<' :: inside ++ ['>'] ++ ['\n']) ++ ('<' :: "body".toList ++ ['>']) := rfl
  unfold htmlHead
  simp only [front, behind, List.append_assoc]

theorem neutral_htmlHead (args : List Text) : Neutral (ofArgs args).htmlHead := by
  have lines (insides : List Text) (known : ∀ inside ∈ insides, inside ∈ pageTags) :
      Neutral (insides.flatMap fun inside => '<' :: inside ++ ['>'] ++ ['\n']) :=
    .flatMap fun inside mem => neutral_line (neutral_page (known inside mem))
  have front := lines (pageTags.take 4) fun inside mem => List.mem_of_mem_take mem
  have back := lines (["/title", "/head"].map String.toList) (by simp [pageTags])
  have title : Neutral ('<' :: "title".toList ++ ['>']) := neutral_page (by simp [pageTags])
  have body : Neutral ('<' :: "body".toList ++ ['>']) := neutral_page (by simp [pageTags])
  have plain : Escaped " manual page".toList := escaped_of_plain rfl
  have name := (escaped_displayName args).append plain
  rw [htmlHead_eq, List.append_assoc (_ ++ _) (displayName _)]
  exact (((front.append title).append name.neutral).append back).append body

theorem htmlTrailer_eq :
    htmlTrailer = ('<' :: "/body".toList ++ ['>']) ++ ('<' :: "/html".toList ++ ['>']) := rfl

theorem neutral_htmlTrailer : Neutral htmlTrailer := by
  rw [htmlTrailer_eq]
  exact (neutral_page (by simp [pageTags])).append (neutral_page (by simp [pageTags]))

theorem nestedTags_htmlTrailer : nestedTags htmlTrailer = [] := rfl

end Title

/-! ### Tables -/

namespace Table

theorem renderCell_eq (cell : Text) (element : Element) : renderCell element.name cell =
    element.start ++ Inline.render cell ++ element.stop := by
  have slash : "</".toList = ['<', '/'] := rfl
  simp [renderCell, Element.start, Element.stop, slash]

theorem neutral_renderCell (cell : Text) {element : Element} (nested : element.isLoose = false)
    (anywhere : ∀ opened, element.fits opened = true) :
    Neutral (renderCell element.name cell) := by
  rw [renderCell_eq]
  exact fun opened => .inElement nested (anywhere opened) (neutral_render cell _)

theorem cellTag_eq (format : Format) (index : Nat) :
    format.cellTag index = Element.th.name ∨ format.cellTag index = Element.td.name := by
  unfold Format.cellTag
  split
  · exact .inl rfl
  · exact .inr rfl

theorem neutral_renderRow (format : Format) (index : Nat) (line : Text) :
    Neutral (renderRow format index line) := by
  have start : "<tr>".toList = Element.tr.start := rfl
  have stop : "</tr>".toList = Element.tr.stop := rfl
  unfold renderRow
  rw [start, stop]
  have row : Neutral ((cells format line).flatMap (renderCell (format.cellTag index))) := by
    refine .flatMap fun cell _ => ?_
    rcases cellTag_eq format index with eq | eq
    · rw [eq]
      exact neutral_renderCell cell rfl fun _ => rfl
    · rw [eq]
      exact neutral_renderCell cell rfl fun _ => rfl
  exact fun opened => .inElement rfl rfl (row _)

theorem nests_opening (format : Format) (opened : List Element) :
    Nests opened (opening format) (.table :: opened) := by
  unfold opening
  split
  · have form : "<table align=\"center\">".toList =
        '<' :: "table align=\"center\"".toList ++ ['>'] := rfl
    have nested : nested? "table align=\"center\"".toList = some (.opening .table) := rfl
    have plain : headingId? "table align=\"center\"".toList = none := rfl
    have lead : Nests opened _ (.table :: opened) _ :=
      .tag .centeredTable (by rw [nested]; rfl)
    rw [plain] at lead
    rw [form]
    exact lead
  · have form : "<table>".toList = Element.table.start := rfl
    rw [form]
    exact .start rfl rfl

theorem neutral_render (format : Format) (body : List Text) : Neutral (render format body) := by
  have stop : "\n</table>".toList = ['\n'] ++ Element.table.stop := rfl
  intro opened
  unfold render
  rw [stop]
  refine ((nests_opening format opened).append (Nests.flatMap fun row mem => ?_)).append
    ((neutral_newline _).append (.stop rfl))
  obtain ⟨index, -, rfl⟩ := List.mem_mapIdx.mp mem
  exact neutral_newline.append (neutral_renderRow format index _) _

theorem eq_of_read {input : Input} {html : Text} (h : (read input).value = .ok html) :
    ∃ format body, html = render format body := by
  have body (format : Format) (input : Input) (h : (readBody format input).value = .ok html) :
      ∃ body, html = render format body := by
    unfold readBody at h
    dsimp only at h
    split at h
    · cases h
    · cases h
      exact ⟨_, rfl⟩
    · cases h
      exact ⟨_, rfl⟩
  unfold read at h
  split at h
  · cases h
  · exact ⟨_, body _ _ h⟩

theorem neutral_of_read {input : Input} {html : Text} (h : (read input).value = .ok html) :
    Neutral html := by
  obtain ⟨format, body, rfl⟩ := eq_of_read h
  exact neutral_render format body

end Table

/-! ### Texts and entries -/

namespace Document

theorem eq_of_readFont {font : Font} {args : List Text} {input : Input} {html : Text}
    (h : (readFont font args input).value = .ok (some html)) :
    ∃ text, html = font.wrap (render text) := by
  unfold readFont at h
  dsimp only at h
  split at h
  · simp only [Except.ok.injEq, Option.some.injEq] at h
    exact ⟨_, h.symm⟩
  · rename_i other
    exact absurd h (other html)

/-- The text of an entry is that of a request for fonts, or a line of text. -/
theorem eq_of_readEntry {input : Input} {html : Text}
    (h : (readEntry input).value = .ok (some html)) :
    (∃ font text, html = Font.wrap font (render text)) ∨
      (∃ first second args, html = alternate first second args) ∨
      ∃ text, html = renderLine text := by
  have line (text : Text) (input : Input) (h : (entryOfLine text input).value = .ok (some html)) :
      (∃ font text, html = Font.wrap font (render text)) ∨
        (∃ first second args, html = alternate first second args) ∨
        ∃ text, html = renderLine text := by
    unfold entryOfLine at h
    split at h
    · exact .inl ⟨_, eq_of_readFont h⟩
    · obtain rfl := Option.some.inj (Except.ok.inj h)
      exact .inr (.inl ⟨_, _, _, rfl⟩)
    · obtain rfl := Option.some.inj (Except.ok.inj h)
      exact .inr (.inr ⟨_, rfl⟩)
  unfold readEntry at h
  split at h
  · exact line _ _ h
  · rename_i value input' other eq
    exact absurd eq (by simp_all)

theorem neutral_of_readFont {font : Font} {args : List Text} {input : Input} {html : Text}
    (h : (readFont font args input).value = .ok (some html)) : Neutral html := by
  obtain ⟨text, eq⟩ := eq_of_readFont h
  rw [eq]
  exact font.neutral_wrap (neutral_render text)

/-- The text of an entry is HTML that may stand outside of anchors. -/
theorem nests_of_readEntry {input : Input} {html : Text} {opened : List Element}
    (outside : .a ∉ opened) (h : (readEntry input).value = .ok (some html)) :
    Nests opened html opened := by
  rcases eq_of_readEntry h with ⟨font, text, eq⟩ | ⟨first, second, args, eq⟩ | ⟨text, eq⟩
  · rw [eq]
    exact font.neutral_wrap (neutral_render text) opened
  · rw [eq]
    exact neutral_alternate first second args opened
  · rw [eq]
    exact nests_renderLine text outside

/-- The text of an entry, which is none at the end of a page. -/
theorem isPhrase_of_readEntry {input : Input} {html : Option Text}
    (h : (readEntry input).value = .ok html) : IsPhrase (html.getD []) := by
  cases html with
  | none => exact .nil
  | some html =>
    rw [Option.getD_some]
    rcases eq_of_readEntry h with ⟨font, text, eq⟩ | ⟨first, second, args, eq⟩ | ⟨text, eq⟩
    · rw [eq]
      exact (isPhrase_render text).wrap font
    · rw [eq]
      exact isPhrase_alternate first second args
    · rw [eq]
      exact isPhrase_renderLine text

end Document

/-! ### Headings -/

def HeadingLevel.element : HeadingLevel → Element
  | .section => .h2
  | .subsection => .h3

theorem HeadingLevel.name_element (level : HeadingLevel) : level.element.name = level.tag := by
  cases level <;> rfl

theorem nested?_heading (level : HeadingLevel) (rest : Text) :
    nested? (level.tag ++ ' ' :: rest) = some (.opening level.element) := by
  have name : Tag.ofInside? (level.tag ++ ' ' :: rest) =
      (Element.ofName? level.tag).map Tag.opening := by
    cases level <;> simp [HeadingLevel.tag, Tag.ofInside?]
  have known : Element.ofName? level.tag = some level.element := by
    cases level <;> rfl
  rw [nested?, name, known]
  cases level <;> rfl

namespace Document

/-- What stands between the brackets of the tag that opens a heading. -/
def headingInside (level : HeadingLevel) (value : Text) : Text :=
  level.tag ++ " id=\"".toList ++ value ++ ['"']

theorem headingInside_eq (level : HeadingLevel) (value : Text) : headingInside level value =
    level.tag ++ ' ' :: 'i' :: 'd' :: '=' :: '"' :: (value ++ ['"']) := by
  have id : " id=\"".toList = [' ', 'i', 'd', '=', '"'] := rfl
  unfold headingInside
  simp only [id, List.append_assoc, List.cons_append, List.nil_append]

theorem headingId?_headingInside (level : HeadingLevel) {value : Text} (noQuote : '"' ∉ value) :
    headingId? (headingInside level value) = some value := by
  have whole := takeWhile_append_cons noQuote []
  have section' : "h2".toList = ['h', '2'] := rfl
  have subsection' : "h3".toList = ['h', '3'] := rfl
  rw [headingInside_eq]
  cases level with
  | «section» =>
    simp only [HeadingLevel.tag, section', List.cons_append, List.nil_append, headingId?, whole]
    simp
  | subsection =>
    simp only [HeadingLevel.tag, subsection', List.cons_append, List.nil_append, headingId?, whole]
    simp

theorem nests_headingStart (level : HeadingLevel) {value : Text} (h : IsAttributeValue value)
    (opened : List Element) :
    Nests opened ('<' :: headingInside level value ++ ['>']) (level.element :: opened) [value] := by
  have walk : nest? opened (nested? (headingInside level value)).toList =
      some (level.element :: opened) := by
    rw [headingInside_eq, nested?_heading]
    cases level <;> rfl
  have lead := Nests.tag (.heading level h) walk
  rwa [← headingInside, headingId?_headingInside level h.no_quote] at lead

theorem renderHeading_eq (level : HeadingLevel) (identifier html : Text) :
    renderHeading level identifier html =
      ('<' :: headingInside level (attributeValue identifier) ++ ['>']) ++
        (('<' :: ("a href=\"".toList ++ ('#' :: attributeValue identifier) ++ ['"']) ++ ['>']) ++
          html ++ Element.a.stop ++ level.element.stop) := by
  have between : "\"><a href=\"#".toList =
      '"' :: '>' :: '<' :: ("a href=\"".toList ++ ['#']) := rfl
  have behind : "\">".toList = ['"', '>'] := rfl
  have stop : "</a></".toList = Element.a.stop ++ ['<', '/'] := rfl
  unfold renderHeading headingInside
  rw [between, behind, stop]
  simp only [Element.stop, HeadingLevel.name_element, List.append_assoc, List.cons_append,
    List.nil_append]

/-- The address of a heading in its page. -/
theorem isAttributeValue_fragment {identifier : Text} (escaped : Escaped identifier) :
    IsAttributeValue ('#' :: attributeValue identifier) := by
  have value := isAttributeValue_attributeValue escaped
  refine ⟨.cons (by decide) value.escaped, fun mem => ?_⟩
  rcases List.mem_cons.mp mem with eq | mem
  · exact absurd eq (by decide)
  · exact value.no_quote mem

/-- A heading closes what it opens, and has its identifier. -/
theorem nests_renderHeading (level : HeadingLevel) {identifier html : Text}
    (escaped : Escaped identifier) (neutral : Neutral html) {opened : List Element}
    (outside : .a ∉ opened) :
    Nests opened (renderHeading level identifier html) opened [attributeValue identifier] := by
  have value := isAttributeValue_attributeValue escaped
  have link := isAttributeValue_fragment escaped
  have nested : level.element.isLoose = false := by cases level <;> rfl
  have outside' : .a ∉ level.element :: opened := by
    have other : .a ≠ level.element := by cases level <;> decide
    simp [other, outside]
  rw [renderHeading_eq]
  exact (nests_headingStart level value opened).join
    ((((nests_anchorStart link outside').append (neutral _)).append (.stop rfl)).append
      (.stop nested))

end Document

end ManPage
