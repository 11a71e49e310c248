import ManPage.Proofs.Line.Quoting
import ManPage.Proofs.Text.Pieces

/-! Words of a text without quotes and backslashes. They are cut at the blanks alone, and come back
as they are unless the text holds the stand-in for protected blanks, which comes back as a space. -/

namespace ManPage.Line

open Text

variable {text : Text}

/-- A word that is being read is the start of the next piece. -/
theorem cutWords_eq_pieces (noQuote : '"' ∉ text) (noEscape : '\\' ∉ text) :
    cutWords .between text = pieces text ∧
      ∀ read, read ≠ [] → (∀ c ∈ read, isBlank c = false) →
        cutWords (.word read) text = pieces (read.reverse ++ text) := by
  have alone {read : Text} (nonempty : read ≠ []) (visible : ∀ c ∈ read, isBlank c = false) :
      pieces read.reverse = [read.reverse] :=
    pieces_of_visible (by simpa using nonempty) (by simpa using visible)
  induction text with
  | nil =>
    refine ⟨pieces_nil.symm, fun read nonempty visible => ?_⟩
    rw [List.append_nil, alone nonempty visible]
    rfl
  | cons c text ih =>
    rw [List.mem_cons, not_or, ← ne_eq, ne_comm] at noQuote noEscape
    obtain ⟨between, word⟩ := ih noQuote.2 noEscape.2
    by_cases blank : isBlank c = true
    · refine ⟨?_, fun read nonempty visible => ?_⟩
      · rw [cutWords_of_cut (cut_between_blank blank text), between, pieces_cons_blank blank]
      · rw [cutWords_of_cut_map (cut_word_blank blank read text), between,
          pieces_append_blank blank, alone nonempty visible, List.singleton_append]
    · rw [Bool.not_eq_true] at blank
      refine ⟨?_, fun read nonempty visible => ?_⟩
      · rw [cutWords_of_cut (cut_between_char blank noQuote.1 noEscape.1 text),
          word [c] (List.cons_ne_nil c []) (by simpa using blank)]
        rfl
      · rw [cutWords_of_cut (cut_word_char blank noEscape.1 read text),
          word (c :: read) (List.cons_ne_nil c read) (by simpa using ⟨blank, visible⟩),
          List.reverse_cons, List.append_assoc, List.singleton_append]

theorem protectedSpace_not_mem (word : Text) : protectedSpace ∉ restoreSpaces word := by
  intro mem
  obtain ⟨c, -, eq⟩ := List.mem_map.mp mem
  by_cases protects : c = protectedSpace
  · rw [if_pos protects] at eq
    cases eq
  · rw [if_neg protects] at eq
    exact protects eq

/-- The words of a text without quotes and backslashes are its longest stretches without blanks, in
which each stand-in for a protected blank is a space; so they are these stretches exactly if the
text holds no stand-in. -/
theorem words_eq_pieces_iff (noQuote : '"' ∉ text) (noEscape : '\\' ∉ text) :
    words text = (pieces text).map restoreSpaces ∧
      (words text = pieces text ↔ protectedSpace ∉ text) := by
  have unprotected : NoneProtected text :=
    noneProtected_iff.mpr fun _ _ inside => noEscape (inside.subset (by simp))
  have cut : words text = (pieces text).map restoreSpaces := by
    rw [words, protectBlanks_eq_self unprotected, (cutWords_eq_pieces noQuote noEscape).1]
  have held : protectedSpace ∈ text ↔ ∃ piece ∈ pieces text, protectedSpace ∈ piece := by
    have visible : isBlank protectedSpace = false := by decide
    rw [← List.mem_flatten, flatten_pieces, List.mem_filter, visible]
    exact (and_iff_left rfl).symm
  refine ⟨cut, fun same mem => ?_, fun foreign => ?_⟩
  · obtain ⟨piece, inside, holds⟩ := held.mp mem
    rw [← same, cut] at inside
    obtain ⟨word, -, rfl⟩ := List.mem_map.mp inside
    exact protectedSpace_not_mem word holds
  · have kept : ∀ piece ∈ pieces text, restoreSpaces piece = piece := fun piece mem =>
      restoreSpaces_eq_self fun holds => foreign (held.mpr ⟨piece, mem, holds⟩)
    rw [cut, List.map_congr_left kept, List.map_id']

/-- A text with blanks of two kinds, of which one ends it. -/
theorem words_eq_pieces_iff_separators :
    let text := "ab\u3000c\ue000d\n".toList
    '"' ∉ text ∧ '\\' ∉ text ∧ words text = (pieces text).map restoreSpaces ∧
      (words text = pieces text ↔ protectedSpace ∉ text) :=
  ⟨by decide, by decide, words_eq_pieces_iff (by decide) (by decide)⟩

theorem not_words_eq_pieces :
    ¬∀ text : Text, '"' ∉ text → '\\' ∉ text → words text = pieces text :=
  fun same => absurd (same "a\ue000b".toList (by decide) (by decide)) (by decide +kernel)

end ManPage.Line
