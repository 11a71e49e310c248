import ManPage.Nesting
import ManPage.Proofs.Markup.Nest

/-! The elements that are open in the regions of a document. A region opens, separates and closes
its entries by tags of its own elements, so each change of the nesting puts out the tags that lead
from the elements open before it to those open behind it. -/

namespace ManPage

open Markup

/-- The elements that are open in a region, the outermost first. -/
def Region.elements : Region → List Element
  | paragraph => []
  | definitions => [.dl, .dd]
  | bullets => [.ul, .li]

/-- The elements that are open in regions, the innermost first; so are the regions. -/
def Region.opened (regions : List Region) : List Element :=
  regions.flatMap (·.elements.reverse)

/-- The elements that are open in a document, the outermost first. -/
def Nesting.elements (nesting : Nesting) : List Element :=
  nesting.toList.flatMap Region.elements

/-- A region is a list of entries, by the elements of the list and of an entry: it opens with the
list, and an entry ends in front of the next. -/
structure Region.IsListOf (region : Region) (list item : Element) : Prop where
  elements : region.elements = [list, item]
  opening : region.opening = list.start
  separator : region.separator = item.stop
  anywhere : ∀ opened, list.fits opened = true

namespace Region

theorem isListOf_definitions : definitions.IsListOf .dl .dd :=
  ⟨rfl, rfl, rfl, fun _ => rfl⟩

theorem isListOf_bullets : bullets.IsListOf .ul .li :=
  ⟨rfl, rfl, rfl, fun _ => rfl⟩

theorem IsListOf.eq {region : Region} {list item : Element} (h : region.IsListOf list item) :
    region = .definitions ∧ list = .dl ∧ item = .dd ∨
      region = .bullets ∧ list = .ul ∧ item = .li := by
  have elements := h.elements
  cases region with
  | paragraph => cases elements
  | definitions =>
    cases elements
    exact .inl ⟨rfl, rfl, rfl⟩
  | bullets =>
    cases elements
    exact .inr ⟨rfl, rfl, rfl⟩

theorem nested_elements (region : Region) :
    ∀ element ∈ region.elements, element.isLoose = false ∧ element ≠ .a := by
  cases region <;> decide

theorem closing_eq (region : Region) :
    region.closing = region.elements.reverse.flatMap Element.stop := by
  cases region <;> rfl

theorem nested_opened {regions : List Region} :
    ∀ element ∈ opened regions, element.isLoose = false ∧ element ≠ .a := by
  intro element mem
  obtain ⟨region, -, mem⟩ := List.mem_flatMap.mp mem
  exact region.nested_elements element (List.mem_reverse.mp mem)

/-- No anchor is open in a document. -/
theorem anchor_not_mem_opened (regions : List Region) : .a ∉ opened regions :=
  fun mem => (nested_opened _ mem).2 rfl

theorem flatMap_closing (regions : List Region) :
    regions.flatMap closing = (opened regions).flatMap Element.stop := by
  rw [opened, List.flatMap_assoc]
  congr 1
  funext region
  exact region.closing_eq

end Region

namespace Markup

theorem isHtml_stop (element : Element) : IsHtml element.stop :=
  isHtml_tag (.closing element)

/-- The tags that close elements are theirs. -/
theorem nestedTags_stops {elements : List Element}
    (nested : ∀ element ∈ elements, element.isLoose = false) :
    nestedTags (elements.flatMap Element.stop) = elements.map .closing := by
  induction elements with
  | nil => rfl
  | cons element elements ih =>
    have head : nestedTags element.stop = [.closing element] := by
      have loose := nested element (by simp)
      have text : element.stop = '<' :: ('/' :: element.name) ++ ['>'] := rfl
      rw [text, nestedTags, tags_tag_append (.closing element) []]
      simp [Nests.nested?_slash_name, loose]
    rw [List.flatMap_cons, (isHtml_stop element).nestedTags_append, head,
      ih fun e he => nested e (List.mem_cons_of_mem _ he)]
    rfl

theorem nests_stops {elements : List Element} (outer : List Element)
    (nested : ∀ element ∈ elements, element.isLoose = false) :
    Nests (elements ++ outer) (elements.flatMap Element.stop) outer := by
  induction elements with
  | nil => exact .nil
  | cons element elements ih =>
    rw [List.flatMap_cons, List.cons_append]
    exact (Nests.stop (nested element (by simp))).append
      (ih fun e he => nested e (List.mem_cons_of_mem _ he))

end Markup

namespace Region

theorem nests_closing (region : Region) (outer : List Element) :
    Nests (region.elements.reverse ++ outer) region.closing outer := by
  rw [closing_eq]
  refine nests_stops outer fun element mem => ?_
  exact (region.nested_elements element (List.mem_reverse.mp mem)).1

end Region

namespace Nesting

/-- The elements that are open in a document, the innermost first. -/
def opened (nesting : Nesting) : List Element :=
  Region.opened (nesting.current :: nesting.outer)

theorem opened_eq (nesting : Nesting) :
    nesting.opened = nesting.current.elements.reverse ++ Region.opened nesting.outer := by
  unfold opened Region.opened
  exact List.flatMap_cons

theorem reverse_elements (nesting : Nesting) : nesting.elements.reverse = nesting.opened := by
  rw [elements, toList, List.reverse_flatMap]
  simp [opened, Region.opened, Function.comp_def]

theorem anchor_not_mem_opened (nesting : Nesting) : .a ∉ nesting.opened :=
  Region.anchor_not_mem_opened _

theorem opened_setCurrent (nesting : Nesting) (region : Region) :
    (nesting.setCurrent region).opened = region.elements.reverse ++ Region.opened nesting.outer :=
  opened_eq _

theorem nests_current_closing (nesting : Nesting) :
    Nests nesting.opened nesting.current.closing (Region.opened nesting.outer) := by
  rw [opened_eq]
  exact nesting.current.nests_closing _

/-- A paragraph is the current region behind the end of one. -/
theorem closeRegion_snd (nesting : Nesting) :
    nesting.closeRegion.2 = nesting.setCurrent .paragraph := by
  rcases nesting with ⟨_ | _ | _, _⟩ <;> rfl

theorem nests_closeRegion (nesting : Nesting) :
    Nests nesting.opened nesting.closeRegion.1 nesting.closeRegion.2.opened := by
  rw [closeRegion_snd]
  exact nesting.nests_current_closing

theorem opened_push (nesting : Nesting) : nesting.push.opened = nesting.opened := rfl

/-- The region that ends closes its elements, and the elements around it stay open. -/
theorem nests_pop (nesting : Nesting) :
    Nests nesting.opened nesting.pop.1.closing nesting.pop.2.opened := by
  have close := nesting.nests_current_closing
  unfold pop
  split
  · rename_i region outer eq
    rwa [eq] at close
  · rename_i eq
    rwa [eq] at close

theorem enterEntry_snd (nesting : Nesting) (region : Region) :
    (nesting.enterEntry region).2 = nesting.setCurrent region := by
  unfold enterEntry
  split
  · rename_i same
    rw [← same]
    rfl
  · rfl

theorem closeRegion_fst {nesting : Nesting} (paragraph : nesting.current = .paragraph) :
    nesting.closeRegion.1 = [] := by
  rw [closeRegion, paragraph]
  rfl

theorem enterEntry_fst {nesting : Nesting} (paragraph : nesting.current = .paragraph)
    (region : Region) : (nesting.enterEntry region).1 = region.opening := by
  unfold enterEntry
  rw [paragraph]
  cases region <;> rfl

theorem enterEntry_setCurrent {nesting : Nesting} {region other : Region} (ne : other ≠ region)
    (paragraph : nesting.current = .paragraph) :
    ((nesting.setCurrent region).enterEntry other).1 =
      region.closing ++ (nesting.enterEntry other).1 := by
  have differs : ¬(nesting.setCurrent region).current = other := ne.symm
  rw [enterEntry_fst paragraph, enterEntry, if_neg differs]
  rfl

/-- The start of an entry leaves its list open, without an entry. -/
theorem nests_enterEntry (nesting : Nesting) {region : Region} {list item : Element}
    (h : region.IsListOf list item) :
    Nests nesting.opened (nesting.enterEntry region).1 (list :: Region.opened nesting.outer) ∧
      (nesting.enterEntry region).2.opened = item :: list :: Region.opened nesting.outer := by
  have nested := region.nested_elements
  rw [h.elements] at nested
  unfold enterEntry
  by_cases same : nesting.current = region
  · have opened : nesting.opened = item :: list :: Region.opened nesting.outer := by
      rw [opened_eq, same, h.elements]
      rfl
    rw [if_pos same, h.separator, opened]
    exact ⟨.stop (nested item (by simp)).1, rfl⟩
  · rw [if_neg same, h.opening]
    constructor
    · exact nesting.nests_current_closing.append
        (.start (nested list (by simp)).1 (h.anywhere _))
    · show (nesting.setCurrent region).opened = _
      rw [opened_setCurrent, h.elements]
      rfl

theorem closeAll_eq (nesting : Nesting) :
    nesting.closeAll.1 = nesting.opened.flatMap Element.stop :=
  Region.flatMap_closing _

end Nesting

end ManPage
