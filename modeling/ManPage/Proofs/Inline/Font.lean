import ManPage.Inline.Font
import ManPage.Proofs.Inline.Escape
import ManPage.Proofs.Markup.Nest

/-! Fonts keep text free of markup and their own tags nested. A switch of fonts may take the start
of an entity with it, but never leaves one without its end: what it leaves of the text holds no
markup. -/

namespace ManPage

namespace Inline

open Text Markup

theorem fontAt_of_ne {c : Char} {rest : Text} (h : c ≠ '\\') : fontAt (c :: rest) = none := by
  unfold fontAt
  split
  · simp_all
  · rfl

/-- What an entity holds behind its ampersand stays in its run. -/
theorem prefix_runs {body text : Text} (chars : ∀ c ∈ body, isEntityChar c)
    (start : body <+: text) : body <+: (runs (scan fontAt text)).1 := by
  obtain ⟨rest, rfl⟩ := start
  have ignored : ∀ c s, c :: s <:+ body → fontAt (c :: s ++ rest) = none := fun c s suffix =>
    fontAt_of_ne (ne_of_isEntityChar (chars c (suffix.subset (by simp))) (by decide))
  rw [scan_append ignored, runs_append_inl]
  exact List.prefix_append _ _

/-- Each run of a text without markup is one. -/
theorem escaped_runs (text : Text) (h : Escaped text) :
    Escaped (runs (scan fontAt text)).1 ∧
      ∀ marked ∈ (runs (scan fontAt text)).2, Escaped marked.2 := by
  induction text using scan_induction fontAt with
  | nil => exact ⟨escaped_nil, by simp⟩
  | skip c rest hc ih =>
    obtain ⟨lead, marked⟩ := ih h.tail
    rw [scan_of_none hc, runs_inl]
    refine ⟨⟨?_, ?_, ?_⟩, marked⟩
    · exact Guarded.exchange (a := [c]) h.guarded lead.guarded
        fun body chars start => prefix_runs chars start
    · have := h.no_opening
      simp_all [lead.no_opening]
    · have := h.no_closing
      simp_all [lead.no_closing]
  | hit c rest font width hc ih =>
    obtain ⟨lead, marked⟩ := ih (h.tail.drop _)
    rw [scan_of_some hc, runs_inr]
    exact ⟨escaped_nil, by simpa [lead] using fun font run hm => marked (font, run) hm⟩

end Inline

open Markup

namespace Font

/-- The elements of a font, the outermost first. -/
def elements : Font → List Element
  | roman => []
  | bold => [.b]
  | italic => [.em]
  | boldItalic => [.b, .em]
  | mono => [.code]

theorem opening_eq (font : Font) : font.opening = font.elements.flatMap Element.start := by
  cases font <;> rfl

theorem closing_eq (font : Font) : font.closing = font.elements.reverse.flatMap Element.stop := by
  cases font <;> rfl

/-- A font tells what it is wrapped around. -/
theorem wrap_injective (font : Font) : Function.Injective font.wrap := by
  intro first second same
  unfold wrap at same
  split at same <;> split at same
  · simp_all
  · simp_all
  · simp_all
  · simpa using same

theorem mem_elements (font : Font) :
    ∀ element ∈ font.elements, element = .b ∨ element = .em ∨ element = .code := by
  cases font <;> decide

theorem neutral_wrap (font : Font) {html : Text} (h : Neutral html) : Neutral (font.wrap html) := by
  unfold wrap
  split
  · exact neutral_nil
  · rw [opening_eq, closing_eq]
    refine h.inElements fun element he => ?_
    obtain rfl | rfl | rfl := mem_elements font element he
    all_goals exact ⟨rfl, fun _ => rfl⟩

def tags : List Text :=
  [Element.b, .em, .code].flatMap fun element => [element.name, '/' :: element.name]

theorem tags_wrap_subset (font : Font) {html : Text} (h : Escaped html) :
    Markup.tags (font.wrap html) ⊆ tags := by
  have opening : IsHtml font.opening := by
    rw [opening_eq]
    exact isHtml_flatMap fun element _ => isHtml_tag (.opening element)
  unfold wrap
  split
  · simp
  · rw [List.append_assoc, opening.tags_append, tags_append_of_not_mem h.no_opening]
    cases font <;> decide

end Font

namespace Inline

open Text

/-- The tags of a line of text without links are those of fonts. -/
theorem tags_expandFonts_subset {html : Text} (h : Escaped html) :
    tags (expandFonts html) ⊆ Font.tags := by
  obtain ⟨lead, marked⟩ := escaped_runs html h
  intro inside hi
  unfold expandFonts at hi
  rw [tags_append_of_not_mem lead.no_opening, tags_flatMap fun run hr =>
    (run.1.neutral_wrap (marked run hr).neutral []).isHtml] at hi
  obtain ⟨run, hr, hi⟩ := List.mem_flatMap.mp hi
  exact run.1.tags_wrap_subset (marked run hr) hi

theorem neutral_expandFonts {html : Text} (h : Escaped html) : Neutral (expandFonts html) := by
  obtain ⟨lead, marked⟩ := escaped_runs html h
  exact lead.neutral.append (.flatMap fun run hr => run.1.neutral_wrap (marked run hr).neutral)

/-- A line of text without links is HTML whose tags close what they open. -/
theorem neutral_render (text : Text) : Neutral (render text) :=
  neutral_expandFonts (escaped_escape text)

theorem neutral_alternate (first second : Font) (args : List Text) :
    Neutral (alternate first second args) := by
  induction args generalizing first second with
  | nil => exact neutral_nil
  | cons arg args ih => exact (first.neutral_wrap (neutral_render arg)).append (ih second first)

end Inline

end ManPage
