import ManPage.Proofs.Markup.Item

/-! How the tags of HTML nest. The tags are walked with the elements that are open, the innermost
first: an opening tag adds its element where it may stand, and a closing tag ends the innermost
element. `Nests` says of a piece of HTML from which open elements to which it leads, and which
identifiers its headings have; pieces are put together one after another. -/

namespace ManPage

/-- An element whose tags stand outside the nesting. -/
def Element.isLoose : Element → Bool
  | p | br | pre => true
  | _ => false

/-- An element may open inside the open ones: an entry directly in its list, and an anchor outside
of anchors. -/
def Element.fits (opened : List Element) : Element → Bool
  | a => !opened.contains a
  | li => opened.head? == some ul
  | dt | dd => opened.head? == some dl
  | _ => true

/-- A tag by its element. -/
inductive Tag
  | opening (element : Element)
  | closing (element : Element)
  deriving DecidableEq, Repr

namespace Tag

def element : Tag → Element
  | opening element => element
  | closing element => element

/-- What a tag is, by what stands between its brackets: a tag around the body of a document is
none. -/
def ofInside? : Text → Option Tag
  | '/' :: name => (Element.ofName? name).map closing
  | inside => (Element.ofName? (inside.takeWhile (· != ' '))).map opening

/-- The open elements behind a tag, unless it cannot stand there. -/
def walk? (opened : List Element) : Tag → Option (List Element)
  | opening element => if element.fits opened then some (element :: opened) else none
  | closing element => if opened.head? = some element then some opened.tail else none

end Tag

namespace Markup

/-- The tag of a nested element with the given inside. -/
def nested? (inside : Text) : Option Tag :=
  (Tag.ofInside? inside).filter (!·.element.isLoose)

def nestedTags (html : Text) : List Tag :=
  (tags html).filterMap nested?

/-- The open elements behind a sequence of tags, unless it is not well nested. -/
def nest? (opened : List Element) (tags : List Tag) : Option (List Element) :=
  tags.foldlM Tag.walk? opened

/-- The identifier of a heading with the given inside of its tag. -/
def headingId? : Text → Option Text
  | 'h' :: level :: ' ' :: 'i' :: 'd' :: '=' :: '"' :: rest =>
    if level = '2' ∨ level = '3' then some (rest.takeWhile (· != '"')) else none
  | _ => none

def headingIds (html : Text) : List Text :=
  (tags html).filterMap headingId?

/-- A piece of HTML leads from the open elements `before` to `after`, and its headings have the
identifiers `ids`. -/
structure Nests (before : List Element) (html : Text) (after : List Element)
    (ids : List Text := []) : Prop where
  isHtml : IsHtml html
  walk : nest? before (nestedTags html) = some after
  headings : headingIds html = ids

theorem IsHtml.nestedTags_append {first : Text} (h : IsHtml first) (second : Text) :
    nestedTags (first ++ second) = nestedTags first ++ nestedTags second := by
  simp [nestedTags, h.tags_append]

theorem IsHtml.headingIds_append {first : Text} (h : IsHtml first) (second : Text) :
    headingIds (first ++ second) = headingIds first ++ headingIds second := by
  simp [headingIds, h.tags_append]

theorem nest?_append (opened : List Element) (first second : List Tag) :
    nest? opened (first ++ second) = (nest? opened first).bind (nest? · second) :=
  List.foldlM_append

/-- An element stays closed over tags of other elements. -/
theorem nest?_not_mem {element : Element} {opened after : List Element} {tags : List Tag}
    (others : ∀ tag ∈ tags, tag.element ≠ element) (h : nest? opened tags = some after)
    (closed : element ∉ opened) : element ∉ after := by
  induction tags generalizing opened with
  | nil =>
    obtain rfl : opened = after := by simpa [nest?] using h
    exact closed
  | cons tag tags ih =>
    rw [nest?, List.foldlM_cons, Option.bind_eq_bind, Option.bind_eq_some_iff] at h
    obtain ⟨between, step, h⟩ := h
    refine ih (fun tag ht => others tag (List.mem_cons_of_mem _ ht)) h ?_
    have other := others tag (by simp)
    cases tag with
    | opening element' =>
      obtain ⟨-, rfl⟩ := by simpa [Tag.walk?] using step
      simpa [closed] using fun h => other h.symm
    | closing element' =>
      obtain ⟨-, rfl⟩ := by simpa [Tag.walk?] using step
      exact fun hm => closed (List.mem_of_mem_tail hm)

namespace Nests

variable {opened before between after : List Element}

theorem join {first second : Text} {ids ids' : List Text}
    (hf : Nests before first between ids) (hs : Nests between second after ids') :
    Nests before (first ++ second) after (ids ++ ids') := by
  refine ⟨hf.isHtml.append hs.isHtml, ?_, ?_⟩
  · rw [hf.isHtml.nestedTags_append, nest?_append, hf.walk, Option.bind_some, hs.walk]
  · rw [hf.isHtml.headingIds_append, hf.headings, hs.headings]

theorem append {first second : Text} (hf : Nests before first between)
    (hs : Nests between second after) : Nests before (first ++ second) after :=
  hf.join hs

theorem nil : Nests opened [] opened := ⟨isHtml_nil, rfl, rfl⟩

/-- HTML without tags leaves open what is open. -/
theorem escaped {text : Text} (h : Escaped text) : Nests opened text opened := by
  have untagged := tags_of_not_mem h.no_opening
  refine ⟨h.isHtml, ?_, ?_⟩
  · rw [nestedTags, untagged]
    rfl
  · rw [headingIds, untagged]
    rfl

/-- A tag leads where its walk does. -/
theorem tag {inside : Text} (h : IsTag inside)
    (walk : nest? before (nested? inside).toList = some after) :
    Nests before ('<' :: inside ++ ['>']) after (headingId? inside).toList := by
  refine ⟨isHtml_tag h, ?_, ?_⟩
  · rw [nestedTags, tags_tag_append h []]
    cases tag : nested? inside <;> simpa [tag] using walk
  · rw [headingIds, tags_tag_append h []]
    cases id : headingId? inside <;> simp [id]

theorem flatMap {α : Type} {list : List α} {f : α → Text}
    (h : ∀ a ∈ list, Nests opened (f a) opened) : Nests opened (list.flatMap f) opened := by
  induction list with
  | nil => exact nil
  | cons a list ih =>
    rw [List.flatMap_cons]
    exact (h a (by simp)).append (ih fun b hb => h b (List.mem_cons_of_mem a hb))

/-! ### Tags without attributes -/

theorem nested?_name (element : Element) :
    nested? element.name = if element.isLoose then none else some (.opening element) := by
  cases element <;> rfl

theorem nested?_slash_name (element : Element) :
    nested? ('/' :: element.name) = if element.isLoose then none else some (.closing element) := by
  cases element <;> rfl

theorem headingId?_name (element : Element) :
    headingId? element.name = none ∧ headingId? ('/' :: element.name) = none := by
  cases element <;> exact ⟨rfl, rfl⟩

/-- The tag that opens an element leads where its walk does. -/
theorem openingTag {element : Element}
    (walk : nest? before (nested? element.name).toList = some after) :
    Nests before element.start after := by
  have lead := tag (.opening element) walk
  rwa [(headingId?_name element).1] at lead

/-- The tag that closes an element leads where its walk does. -/
theorem closingTag {element : Element}
    (walk : nest? before (nested? ('/' :: element.name)).toList = some after) :
    Nests before element.stop after := by
  have lead := tag (.closing element) walk
  rwa [(headingId?_name element).2] at lead

theorem start {element : Element} (nested : element.isLoose = false)
    (fits : element.fits opened) : Nests opened element.start (element :: opened) := by
  refine openingTag ?_
  simp [nested?_name, nested, nest?, Tag.walk?, fits]

theorem stop {element : Element} (nested : element.isLoose = false) :
    Nests (element :: opened) element.stop opened := by
  refine closingTag ?_
  simp [nested?_slash_name, nested, nest?, Tag.walk?]

theorem looseStart {element : Element} (loose : element.isLoose = true) :
    Nests opened element.start opened := by
  refine openingTag ?_
  simp [nested?_name, loose, nest?]

theorem looseStop {element : Element} (loose : element.isLoose = true) :
    Nests opened element.stop opened := by
  refine closingTag ?_
  simp [nested?_slash_name, loose, nest?]

/-- A tag around the body of a document is not nested. -/
theorem page {inside : Text} (known : inside ∈ pageTags) :
    Nests opened ('<' :: inside ++ ['>']) opened := by
  have outside : ∀ inside ∈ pageTags, nested? inside = none ∧ headingId? inside = none := by
    decide
  obtain ⟨loose, plain⟩ := outside inside known
  have lead : Nests opened _ opened _ := tag (.page known) (by rw [loose]; rfl)
  rwa [plain] at lead

/-- HTML in an element. -/
theorem inElement {element : Element} {html : Text} (nested : element.isLoose = false)
    (fits : element.fits opened) (h : Nests (element :: opened) html (element :: opened)) :
    Nests opened (element.start ++ html ++ element.stop) opened :=
  ((start nested fits).append h).append (stop nested)

end Nests

/-- HTML that may stand anywhere and closes what it opens. -/
def Neutral (html : Text) : Prop :=
  ∀ opened, Nests opened html opened

theorem neutral_nil : Neutral [] := fun _ => .nil

theorem Escaped.neutral {text : Text} (h : Escaped text) : Neutral text :=
  fun _ => .escaped h

theorem neutral_newline : Neutral ['\n'] :=
  (escaped_of_plain (by decide)).neutral

theorem Neutral.append {first second : Text} (hf : Neutral first) (hs : Neutral second) :
    Neutral (first ++ second) :=
  fun opened => (hf opened).append (hs opened)

theorem Neutral.flatMap {α : Type} {list : List α} {f : α → Text} (h : ∀ a ∈ list, Neutral (f a)) :
    Neutral (list.flatMap f) :=
  fun opened => .flatMap fun a ha => h a ha opened

/-- HTML in elements that may stand anywhere, the outermost first. -/
theorem Neutral.inElements {elements : List Element} {html : Text} (h : Neutral html)
    (anywhere : ∀ element ∈ elements,
      element.isLoose = false ∧ ∀ opened, element.fits opened = true) :
    Neutral (elements.flatMap Element.start ++ html ++ elements.reverse.flatMap Element.stop) := by
  induction elements with
  | nil => simpa using h
  | cons element elements ih =>
    intro opened
    have inner := ih fun element he => anywhere element (List.mem_cons_of_mem _ he)
    obtain ⟨nested, fits⟩ := anywhere element (by simp)
    simpa [List.append_assoc] using Nests.inElement nested (fits opened) (inner _)

end Markup

end ManPage
