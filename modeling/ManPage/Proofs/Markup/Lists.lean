import ManPage.Proofs.Markup.Nest

/-! The tags of lists in HTML. They are nested among themselves if all tags are, and a piece of HTML
that holds the text of a closing tag has that tag. -/

namespace ManPage

def Element.isListPart : Element → Bool
  | dl | dt | dd | ul | li => true
  | _ => false

def Tag.isListPart (tag : Tag) : Bool :=
  tag.element.isListPart

namespace Markup

def listTags (html : Text) : List Tag :=
  (nestedTags html).filter Tag.isListPart

theorem fits_filter_isListPart {element : Element} {opened : List Element}
    (part : element.isListPart) (fits : element.fits opened) :
    element.fits (opened.filter Element.isListPart) := by
  have head (list : Element) (isPart : list.isListPart)
      (first : (opened.head? == some list) = true) :
      ((opened.filter Element.isListPart).head? == some list) = true := by
    obtain ⟨rest, rfl⟩ := List.head?_eq_some_iff.mp (beq_iff_eq.mp first)
    simp [isPart]
  cases element with
  | dt | dd => exact head .dl rfl fits
  | li => exact head .ul rfl fits
  | dl | ul => rfl
  | _ => cases part

/-- A tag of a list does among the elements of lists what it does among all. -/
theorem walk?_filter_isListPart {tag : Tag} {opened after : List Element}
    (part : tag.isListPart) (walk : tag.walk? opened = some after) :
    tag.walk? (opened.filter Element.isListPart) = some (after.filter Element.isListPart) := by
  cases tag with
  | opening element =>
    replace part : element.isListPart = true := part
    obtain ⟨fits, rfl⟩ := by simpa [Tag.walk?] using walk
    simp [Tag.walk?, fits_filter_isListPart part fits, part]
  | closing element =>
    replace part : element.isListPart = true := part
    obtain ⟨first, rfl⟩ := by simpa [Tag.walk?] using walk
    obtain ⟨rest, rfl⟩ := List.head?_eq_some_iff.mp first
    simp [Tag.walk?, part]

theorem filter_isListPart_of_walk? {tag : Tag} {opened after : List Element}
    (other : tag.isListPart = false) (walk : tag.walk? opened = some after) :
    after.filter Element.isListPart = opened.filter Element.isListPart := by
  cases tag with
  | opening element =>
    replace other : element.isListPart = false := other
    obtain ⟨-, rfl⟩ := by simpa [Tag.walk?] using walk
    simp [other]
  | closing element =>
    replace other : element.isListPart = false := other
    obtain ⟨first, rfl⟩ := by simpa [Tag.walk?] using walk
    obtain ⟨rest, rfl⟩ := List.head?_eq_some_iff.mp first
    simp [other]

/-- The tags of lists are nested if all tags are. -/
theorem nest?_filter_isListPart {tags : List Tag} {opened after : List Element}
    (nested : nest? opened tags = some after) :
    nest? (opened.filter Element.isListPart) (tags.filter Tag.isListPart) =
      some (after.filter Element.isListPart) := by
  induction tags generalizing opened with
  | nil =>
    obtain rfl : opened = after := by simpa [nest?] using nested
    rfl
  | cons tag tags ih =>
    rw [nest?, List.foldlM_cons, Option.bind_eq_bind, Option.bind_eq_some_iff] at nested
    obtain ⟨between, first, later⟩ := nested
    have rest := ih later
    by_cases part : tag.isListPart = true
    · rw [List.filter_cons_of_pos part, nest?, List.foldlM_cons,
        walk?_filter_isListPart part first]
      exact rest
    · rw [List.filter_cons_of_neg part, ← filter_isListPart_of_walk? (by simpa using part) first]
      exact rest

/-! ### Putting HTML together -/

theorem IsHtml.listTags_append {first : Text} (h : IsHtml first) (second : Text) :
    listTags (first ++ second) = listTags first ++ listTags second := by
  rw [listTags, h.nestedTags_append, List.filter_append]
  rfl

theorem listTags_flatMap {α : Type} {list : List α} {f : α → Text}
    (h : ∀ a ∈ list, IsHtml (f a)) :
    listTags (list.flatMap f) = list.flatMap fun a => listTags (f a) := by
  induction list with
  | nil => rfl
  | cons a list ih =>
    rw [List.flatMap_cons, (h a List.mem_cons_self).listTags_append,
      ih fun b mem => h b (List.mem_cons_of_mem a mem), List.flatMap_cons]

theorem listTags_tag {inside : Text} (tag : IsTag inside) :
    listTags ('<' :: inside ++ ['>']) = (nested? inside).toList.filter Tag.isListPart := by
  rw [listTags, nestedTags, tags_tag_append tag []]
  cases is : nested? inside <;> simp [is]

/-! ### The text of a tag -/

theorem mem_tags_of_stands {inside html : Text} (closed : '>' ∉ inside)
    (stands : '<' :: inside ++ ['>'] <:+: html) : inside ∈ tags html := by
  obtain ⟨before, after, rfl⟩ := stands
  induction before with
  | nil =>
    simp [tags, takeWhile_append_cons closed]
  | cons c before ih =>
    rw [List.cons_append, List.cons_append, tags]
    split
    · exact List.mem_cons_of_mem _ ih
    · exact ih

theorem mem_nestedTags_of_stands {element : Element} {html : Text}
    (nested : element.isLoose = false) (stands : element.stop <:+: html) :
    .closing element ∈ nestedTags html := by
  have closed : '>' ∉ '/' :: element.name := (IsTag.closing element).no_bracket.2
  have tag : nested? ('/' :: element.name) = some (.closing element) := by
    simp [Nests.nested?_slash_name, nested]
  exact List.mem_filterMap.mpr ⟨_, mem_tags_of_stands closed stands, tag⟩

end Markup

end ManPage
