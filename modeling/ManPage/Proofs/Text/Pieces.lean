import ManPage.Text.Blank

/-! Texts that are cut at the characters of a kind, and the pieces of a text: its longest stretches
without blanks. A blank ends a piece and belongs to none, so trimming a text leaves its pieces as
they are. -/

namespace ManPage.Text

/-! ### Texts cut at a kind of character -/

section Cut

variable {p : Char → Bool} {text word : Text}

theorem mem_splitOnP_of_append {before after : Text} (inside : ∀ c ∈ word, p c = false)
    (left : ∀ c ∈ before.getLast?, p c) (right : ∀ c ∈ after.head?, p c) :
    word ∈ (before ++ word ++ after).splitOnP p := by
  have front : word ∈ (word ++ after).splitOnP p := by
    cases after with
    | nil => simp [List.splitOnP_eq_singleton inside]
    | cons c after =>
      rw [List.splitOnP_append_cons _ _ (right c rfl), List.splitOnP_eq_singleton inside]
      exact List.mem_append_left _ List.mem_cons_self
  rcases List.eq_nil_or_concat before with rfl | ⟨before, c, rfl⟩
  · exact front
  · rw [List.concat_eq_append] at left ⊢
    have cut : p c := left c List.getLast?_concat
    rw [List.append_assoc, List.append_assoc, List.singleton_append,
      List.splitOnP_append_cons _ _ cut]
    exact List.mem_append_right _ front

/-- A text is cut into the stretches that hold no character of the kind, and reach to the next one
or to the end on either side. -/
theorem mem_splitOnP_iff : word ∈ text.splitOnP p ↔
    ∃ before after, text = before ++ word ++ after ∧ (∀ c ∈ word, p c = false) ∧
      (∀ c ∈ before.getLast?, p c) ∧ ∀ c ∈ after.head?, p c := by
  constructor
  · induction hn : text.length using Nat.strongRecOn generalizing text with
    | ind n ih =>
      subst hn
      intro mem
      by_cases cut : ∃ c ∈ text, p c
      · obtain ⟨c, inside, cut⟩ := cut
        obtain ⟨first, second, rfl⟩ := List.append_of_mem inside
        rw [List.splitOnP_append_cons _ _ cut] at mem
        rcases List.mem_append.mp mem with mem | mem
        · obtain ⟨before, after, rfl, plain, left, right⟩ := ih first.length (by simp) rfl mem
          refine ⟨before, after ++ c :: second, by simp, plain, left, fun d next => ?_⟩
          rw [List.head?_append, List.head?_cons] at next
          cases follows : after.head? with
          | none =>
            obtain rfl : c = d := by simpa [follows] using next
            exact cut
          | some a =>
            obtain rfl : a = d := by simpa [follows] using next
            exact right a follows
        · obtain ⟨before, after, rfl, plain, left, right⟩ :=
            ih second.length (by simp; omega) rfl mem
          refine ⟨first ++ c :: before, after, by simp, plain, fun d last => ?_, right⟩
          rw [List.getLast?_append, List.getLast?_cons, Option.some_or] at last
          cases ends : before.getLast? with
          | none =>
            obtain rfl : c = d := by simpa [ends] using last
            exact cut
          | some a =>
            obtain rfl : a = d := by simpa [ends] using last
            exact left a ends
      · have plain : ∀ c ∈ text, p c = false := by simpa using cut
        rw [List.splitOnP_eq_singleton plain, List.mem_singleton] at mem
        exact ⟨[], [], by simp [mem], mem ▸ plain, by simp, by simp⟩
  · rintro ⟨before, after, rfl, inside, left, right⟩
    exact mem_splitOnP_of_append inside left right

end Cut

/-! ### Pieces -/

/-- The longest stretches of a text without blanks, from left to right. -/
def pieces (text : Text) : List Text :=
  (text.splitOnP isBlank).filter (!·.isEmpty)

variable {c : Char} {text rest : Text}

@[simp] theorem pieces_nil : pieces [] = [] := by
  simp [pieces]

theorem pieces_append_blank (blank : isBlank c) (text rest : Text) :
    pieces (text ++ c :: rest) = pieces text ++ pieces rest := by
  simp only [pieces, List.splitOnP_append_cons text rest blank, List.filter_append]

theorem pieces_cons_blank (blank : isBlank c) (rest : Text) : pieces (c :: rest) = pieces rest := by
  simpa using pieces_append_blank blank [] rest

theorem pieces_of_visible (nonempty : text ≠ []) (visible : ∀ c ∈ text, isBlank c = false) :
    pieces text = [text] := by
  rw [pieces, List.splitOnP_eq_singleton visible]
  simp [nonempty]

/-- A visible character in front of a text begins a piece, or is one. -/
theorem pieces_cons_visible (visible : isBlank c = false) (rest : Text) :
    pieces (c :: rest) =
      if rest.head?.any (!isBlank ·) then (pieces rest).modifyHead (c :: ·)
      else [c] :: pieces rest := by
  cases rest with
  | nil => exact pieces_of_visible (by simp) (by simpa using visible)
  | cons d rest =>
    by_cases blank : isBlank d = true
    · have alone : pieces [c] = [[c]] := pieces_of_visible (by simp) (by simpa using visible)
      have cut := pieces_append_blank blank [c] rest
      rw [List.singleton_append, alone] at cut
      simp [blank, cut, pieces_cons_blank blank]
    · obtain ⟨piece, more, split⟩ := List.exists_cons_of_ne_nil (List.splitOnP_ne_nil isBlank rest)
      simp [pieces, List.splitOnP_cons_eq_if_modifyHead, visible, blank, split]

theorem pieces_cons_ne_nil (visible : isBlank c = false) (rest : Text) :
    pieces (c :: rest) ≠ [] := by
  induction rest generalizing c with
  | nil => simp [pieces_cons_visible visible]
  | cons d rest ih =>
    rw [pieces_cons_visible visible]
    split
    · rename_i visible'
      simpa using ih (by simpa using visible')
    · exact List.cons_ne_nil _ _

/-- A text that ends with a visible character has a piece. -/
theorem pieces_ne_nil (nonempty : text ≠ []) (ends : ∀ c ∈ text.getLast?, isBlank c = false) :
    pieces text ≠ [] := by
  induction text with
  | nil => exact absurd rfl nonempty
  | cons c text ih =>
    by_cases blank : isBlank c = true
    · cases text with
      | nil => simp [ends c rfl] at blank
      | cons d text =>
        rw [pieces_cons_blank blank]
        exact ih (List.cons_ne_nil d text) fun e mem => ends e (by rwa [List.getLast?_cons_cons])
    · exact pieces_cons_ne_nil (by simpa using blank) text

theorem pieces_of_blanks (blanks : ∀ c ∈ text, isBlank c) : pieces text = [] := by
  induction text with
  | nil => exact pieces_nil
  | cons c text ih =>
    rw [pieces_cons_blank (blanks c List.mem_cons_self)]
    exact ih fun d mem => blanks d (List.mem_cons_of_mem c mem)

/-- The pieces of a text hold its visible characters, and no others. -/
theorem flatten_pieces (text : Text) : (pieces text).flatten = text.filter (!isBlank ·) := by
  induction text with
  | nil => simp
  | cons c text ih =>
    by_cases blank : isBlank c = true
    · simp [pieces_cons_blank blank, ih, blank]
    · rw [Bool.not_eq_true] at blank
      rw [pieces_cons_visible blank, List.filter_cons_of_pos (by simp [blank]), ← ih]
      split
      · rename_i visible
        obtain ⟨d, text, rfl⟩ : ∃ d rest, text = d :: rest := by
          cases text with
          | nil => simp at visible
          | cons d rest => exact ⟨d, rest, rfl⟩
        obtain ⟨piece, more, split⟩ :=
          List.exists_cons_of_ne_nil (pieces_cons_ne_nil (by simpa using visible) text)
        rw [split]
        rfl
      · rfl

theorem pieces_append_blanks (blanks : ∀ c ∈ rest, isBlank c) (text : Text) :
    pieces (text ++ rest) = pieces text := by
  cases rest with
  | nil => rw [List.append_nil]
  | cons c rest =>
    rw [pieces_append_blank (blanks c List.mem_cons_self),
      pieces_of_blanks fun d mem => blanks d (List.mem_cons_of_mem c mem), List.append_nil]

theorem pieces_trimStart (text : Text) : pieces (trimStart text) = pieces text := by
  induction text with
  | nil => rfl
  | cons c text ih =>
    by_cases blank : isBlank c = true
    · rw [pieces_cons_blank blank, ← ih]
      simp [trimStart, blank]
    · simp [trimStart, blank]

/-- The blanks that trimming takes off the end of a text. -/
theorem trimEnd_append (text : Text) :
    ∃ blanks, (∀ c ∈ blanks, isBlank c) ∧ trimEnd text ++ blanks = text := by
  refine ⟨(text.reverse.takeWhile isBlank).reverse, fun c mem => ?_, ?_⟩
  · exact List.all_eq_true.mp List.all_takeWhile c (List.mem_reverse.mp mem)
  · rw [trimEnd, ← List.reverse_append, List.takeWhile_append_dropWhile, List.reverse_reverse]

theorem getLast?_trimEnd (text : Text) : ∀ c ∈ (trimEnd text).getLast?, isBlank c = false := by
  intro c mem
  rw [trimEnd, List.getLast?_reverse] at mem
  have first := List.head?_dropWhile_not isBlank text.reverse
  rw [Option.mem_def.mp mem] at first
  exact first

theorem head?_trimStart (text : Text) : ∀ c ∈ (trimStart text).head?, isBlank c = false := by
  intro c mem
  have first := List.head?_dropWhile_not isBlank text
  rw [trimStart, Option.mem_def] at mem
  rw [mem] at first
  exact first

theorem head?_trim (text : Text) : ∀ c ∈ (trim text).head?, isBlank c = false := by
  intro c mem
  obtain ⟨blanks, -, split⟩ := trimEnd_append (trimStart text)
  refine head?_trimStart text c ?_
  rw [← split, List.head?_append, show (trimEnd (trimStart text)).head? = some c from mem]
  rfl

theorem pieces_trim (text : Text) : pieces (trim text) = pieces text := by
  obtain ⟨blanks, isBlanks, split⟩ := trimEnd_append (trimStart text)
  rw [← pieces_trimStart text, ← split, pieces_append_blanks isBlanks, trim]

end ManPage.Text
