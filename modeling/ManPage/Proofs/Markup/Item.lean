import ManPage.Request
import ManPage.Proofs.Markup.Escaped

/-! The HTML of a page as a sequence of items: characters, entities, and tags of a fixed list whose
attribute values hold no markup. HTML in this sense may be put together, and `tags` reads its tags
off the text. -/

namespace ManPage

inductive Element
  | p
  | br
  | pre
  | b
  | em
  | code
  | dl
  | dt
  | dd
  | ul
  | li
  | h2
  | h3
  | a
  | table
  | tr
  | th
  | td
  deriving DecidableEq, Repr

namespace Element

def all : List Element :=
  [p, br, pre, b, em, code, dl, dt, dd, ul, li, h2, h3, a, table, tr, th, td]

def name : Element → Text
  | p => "p".toList
  | br => "br".toList
  | pre => "pre".toList
  | b => "b".toList
  | em => "em".toList
  | code => "code".toList
  | dl => "dl".toList
  | dt => "dt".toList
  | dd => "dd".toList
  | ul => "ul".toList
  | li => "li".toList
  | h2 => "h2".toList
  | h3 => "h3".toList
  | a => "a".toList
  | table => "table".toList
  | tr => "tr".toList
  | th => "th".toList
  | td => "td".toList

def ofName? (name : Text) : Option Element :=
  all.find? (·.name == name)

def start (element : Element) : Text :=
  '<' :: element.name ++ ['>']

def stop (element : Element) : Text :=
  '<' :: '/' :: element.name ++ ['>']

end Element

namespace Markup

open Inline

/-- The tags around the body of an HTML document, without their brackets. -/
def pageTags : List Text :=
  ["!DOCTYPE html", "html xmlns=\"http://www.w3.org/1999/xhtml\"", "head",
    "meta charset=\"utf-8\" /", "title", "/title", "/head", "body", "/body", "/html"].map
    String.toList

/-- The value of an attribute: it holds no markup and no quote. -/
structure IsAttributeValue (value : Text) : Prop where
  escaped : Escaped value
  no_quote : '"' ∉ value

/-- A tag of a converted page, without its brackets. -/
inductive IsTag : Text → Prop
  | opening (element : Element) : IsTag element.name
  | closing (element : Element) : IsTag ('/' :: element.name)
  | heading (level : HeadingLevel) {identifier : Text} (value : IsAttributeValue identifier) :
      IsTag (level.tag ++ " id=\"".toList ++ identifier ++ ['"'])
  | link {address : Text} (value : IsAttributeValue address) :
      IsTag ("a href=\"".toList ++ address ++ ['"'])
  | centeredTable : IsTag "table align=\"center\"".toList
  | page {tag : Text} (known : tag ∈ pageTags) : IsTag tag

/-- An item of HTML: a character that is no markup, an entity of the output, or a tag. -/
inductive IsItem : Text → Prop
  | char {c : Char} (opening : c ≠ '<') (closing : c ≠ '>') (ampersand : c ≠ '&') : IsItem [c]
  | entity {entity : Text} (own : entity ∈ ownEntities) : IsItem entity
  | tag {inside : Text} (tag : IsTag inside) : IsItem ('<' :: inside ++ ['>'])

/-- A text that is a sequence of items. -/
def IsHtml (text : Text) : Prop :=
  ∃ items : List Text, text = items.flatten ∧ ∀ item ∈ items, IsItem item

/-- What stands between the brackets of each tag, from left to right. -/
def tags : Text → List Text
  | [] => []
  | c :: rest => if c = '<' then rest.takeWhile (· != '>') :: tags rest else tags rest

/-! ### Putting HTML together -/

theorem isHtml_nil : IsHtml [] := ⟨[], rfl, by simp⟩

theorem IsItem.isHtml {item : Text} (h : IsItem item) : IsHtml item :=
  ⟨[item], by simp, by simpa using h⟩

theorem IsHtml.append {first second : Text} (hf : IsHtml first) (hs : IsHtml second) :
    IsHtml (first ++ second) := by
  obtain ⟨items, rfl, fits⟩ := hf
  obtain ⟨items', rfl, fits'⟩ := hs
  refine ⟨items ++ items', by simp, fun item hi => ?_⟩
  exact (List.mem_append.mp hi).elim (fits item) (fits' item)

theorem isHtml_flatMap {α : Type} {list : List α} {f : α → Text} (h : ∀ a ∈ list, IsHtml (f a)) :
    IsHtml (list.flatMap f) := by
  induction list with
  | nil => exact isHtml_nil
  | cons a list ih =>
    rw [List.flatMap_cons]
    exact (h a (by simp)).append (ih fun b hb => h b (List.mem_cons_of_mem a hb))

theorem isHtml_tag {inside : Text} (h : IsTag inside) : IsHtml ('<' :: inside ++ ['>']) :=
  (IsItem.tag h).isHtml

/-- A text without markup is HTML without tags. -/
theorem Escaped.isHtml {text : Text} (h : Escaped text) : IsHtml text := by
  induction hn : text.length using Nat.strongRecOn generalizing text with
  | ind n ih =>
    subst hn
    match text, h with
    | [], _ => exact isHtml_nil
    | c :: rest, h =>
      by_cases hc : c = '&'
      · obtain ⟨entity, own, rest', eq⟩ := h.guarded.1 hc
        obtain ⟨body, rfl, -⟩ := ownEntities_eq_cons own
        have tail : Escaped rest' := by
          have := h.drop ('&' :: body).length
          rwa [← eq, List.drop_left] at this
        rw [← eq]
        refine (IsItem.entity own).isHtml.append (ih _ ?_ tail rfl)
        simp only [← eq, List.length_append, List.length_cons]
        omega
      · have opening : c ≠ '<' := fun hc => h.no_opening (by simp [hc])
        have closing : c ≠ '>' := fun hc => h.no_closing (by simp [hc])
        exact (IsItem.char opening closing hc).isHtml.append (ih _ (by simp) h.tail rfl)

/-! ### Reading the tags -/

@[simp] theorem tags_nil : tags [] = [] := rfl

theorem tags_append_of_not_mem {text rest : Text} (h : '<' ∉ text) :
    tags (text ++ rest) = tags rest := by
  induction text with
  | nil => rfl
  | cons c text ih =>
    simp only [List.mem_cons, not_or] at h
    rw [List.cons_append, tags, ite_eq_right_iff.mpr (fun hc => absurd hc.symm h.1), ih h.2]

theorem tags_of_not_mem {text : Text} (h : '<' ∉ text) : tags text = [] := by
  rw [← List.append_nil text, tags_append_of_not_mem h, tags]

theorem takeWhile_append_cons {c : Char} {text : Text} (h : c ∉ text) (rest : Text) :
    (text ++ c :: rest).takeWhile (· != c) = text := by
  have others : ∀ d ∈ text, (d != c) = true := fun d mem => by
    simpa using fun (same : d = c) => h (same ▸ mem)
  rw [List.takeWhile_append_of_pos others, List.takeWhile_cons_of_neg (by simp), List.append_nil]

theorem tags_tag {inside rest : Text} (opening : '<' ∉ inside) (closing : '>' ∉ inside) :
    tags ('<' :: inside ++ '>' :: rest) = inside :: tags rest := by
  rw [List.cons_append, tags, if_pos rfl, takeWhile_append_cons closing,
    tags_append_of_not_mem opening, tags, if_neg (by decide)]

theorem no_bracket_name : ∀ element ∈ Element.all, '<' ∉ element.name ∧ '>' ∉ element.name := by
  decide

theorem no_bracket_pageTags : ∀ tag ∈ pageTags, '<' ∉ tag ∧ '>' ∉ tag := by
  decide

theorem Element.mem_all (element : Element) : element ∈ Element.all := by
  cases element <;> decide

/-- No bracket stands inside a tag. -/
theorem IsTag.no_bracket {inside : Text} (h : IsTag inside) : '<' ∉ inside ∧ '>' ∉ inside := by
  cases h with
  | opening element => exact no_bracket_name element (Element.mem_all element)
  | closing element =>
    have name := no_bracket_name element (Element.mem_all element)
    simp [name]
  | heading level value =>
    have := value.escaped.no_opening
    have := value.escaped.no_closing
    cases level <;> simp_all [HeadingLevel.tag]
  | link value =>
    have := value.escaped.no_opening
    have := value.escaped.no_closing
    simp_all
  | centeredTable => decide
  | page known => exact no_bracket_pageTags _ known

theorem tags_tag_append {inside : Text} (h : IsTag inside) (rest : Text) :
    tags ('<' :: inside ++ '>' :: rest) = inside :: tags rest :=
  tags_tag h.no_bracket.1 h.no_bracket.2

theorem IsItem.tags_append {item : Text} (h : IsItem item) (rest : Text) :
    tags (item ++ rest) = tags item ++ tags rest := by
  have plain {text : Text} (h : '<' ∉ text) : tags (text ++ rest) = tags text ++ tags rest := by
    rw [tags_append_of_not_mem h, tags_of_not_mem h, List.nil_append]
  cases h with
  | char opening closing ampersand => exact plain (by simpa using opening.symm)
  | entity own => exact plain (escaped_entity own).no_opening
  | tag inside =>
    rw [List.append_assoc]
    rw [tags_tag_append inside []]
    exact tags_tag_append inside rest

theorem IsHtml.tags_append {html : Text} (h : IsHtml html) (rest : Text) :
    tags (html ++ rest) = tags html ++ tags rest := by
  obtain ⟨items, rfl, fits⟩ := h
  induction items with
  | nil => rfl
  | cons item items ih =>
    have head := fits item (by simp)
    rw [List.flatten_cons, List.append_assoc, head.tags_append, head.tags_append,
      ih fun item hi => fits item (List.mem_cons_of_mem _ hi), List.append_assoc]

theorem tags_flatMap {α : Type} {list : List α} {f : α → Text} (h : ∀ a ∈ list, IsHtml (f a)) :
    tags (list.flatMap f) = list.flatMap fun a => tags (f a) := by
  induction list with
  | nil => rfl
  | cons a list ih =>
    rw [List.flatMap_cons, (h a (by simp)).tags_append,
      ih fun b hb => h b (List.mem_cons_of_mem a hb), List.flatMap_cons]

end Markup

end ManPage
