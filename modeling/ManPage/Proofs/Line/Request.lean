import ManPage.Line.Basic
import ManPage.Proofs.Line.Quoting
import ManPage.Proofs.Text.Complete
import ManPage.Proofs.Text.Substitution

/-! Requests and the comments behind them. The words of a line that ends outside quotes, and with no
part of an escape, are cut as if the line ended there when blanks and a comment follow it. -/

namespace ManPage.Line

open Text

variable {place : Place} {text line rest gap name : Text} {args : List Text}

/-! ### Control lines -/

theorem control?_eq_some_iff :
    control? line = some rest ↔ line = '.' :: rest ∨ line = '\'' :: rest := by
  unfold control?
  split <;> simp_all

theorem isControl_iff : isControl line ↔ ∃ rest, line = '.' :: rest ∨ line = '\'' :: rest := by
  simp only [isControl, Option.isSome_iff_exists, control?_eq_some_iff]

theorem ofControl_eq_request_iff : ofControl rest = .request name args ↔
    ¬"\\\"".toList <+: rest ∧ words rest = name :: args := by
  unfold ofControl
  by_cases empty : rest = []
  · subst empty
    have noWords : words [] = [] := rfl
    simp [noWords]
  · rw [if_neg (by simpa using empty), ← List.isPrefixOf_iff_prefix]
    split
    · simp_all
    · cases words rest <;> simp_all

/-- A line is a request if words stand behind its control character, and no comment. -/
theorem classify_eq_request_iff : classify line = .request name args ↔
    ∃ rest, control? line = some rest ∧ ¬"\\\"".toList <+: trimStart rest ∧
      words (trimStart rest) = name :: args := by
  unfold classify
  cases control? line with
  | none =>
    dsimp only
    split <;> simp
  | some rest => simp [ofControl_eq_request_iff]

/-! ### Where a line ends -/

/-- Whether a place is inside a word in quotes. -/
def Place.isQuoted : Place → Bool
  | quoted _ => true
  | _ => false

/-- Whether the cutting of a control line into words ends inside a word in quotes. -/
def leavesQuoteOpen (line : Text) : Bool :=
  (control? line).any fun rest => (cut .between (protectBlanks (trimStart rest))).2.isQuoted

/-- Where a text is complete, a backslash that it begins with has a character behind it. -/
theorem ne_backslash_of_complete {c : Char} {rest : Text} (complete : IsComplete (c :: rest))
    (alone : ∀ d rest', c = '\\' → rest = d :: rest' → False) : c ≠ '\\' := by
  rintro rfl
  cases rest with
  | nil => exact not_isComplete_backslash complete
  | cons d rest => exact alone d rest rfl rfl

theorem quote_mem_of_closed (read : Text) (closed : (cut (.quoted read) text).2.isQuoted = false) :
    '"' ∈ text := by
  induction text generalizing read with
  | nil => cases closed
  | cons c text ih =>
    by_cases isQuote : c = '"'
    · exact isQuote ▸ List.mem_cons_self
    · rw [cut_quoted_char isQuote] at closed
      exact List.mem_cons_of_mem c (ih _ closed)

theorem head?_append_ne_quote {b : Char} (blank : isBlank b) (more : Text)
    (other : rest.head? ≠ some '"') : (rest ++ b :: more).head? ≠ some '"' := by
  cases rest with
  | nil =>
    intro first
    cases first
    cases blank
  | cons d rest => exact other

/-- What follows a blank adds no words if it has none. -/
theorem cutWords_append {b : Char} {more : Text} (blank : isBlank b)
    (nothing : cutWords .between more = []) (complete : IsComplete text)
    (closed : (cut place text).2.isQuoted = false) :
    cutWords place (text ++ b :: more) = cutWords place text := by
  -- The text is cut at the same places with the blank behind it; each word ends before the blank.
  fun_induction cut place text with
  | case1 place =>
    cases place with
    | between => exact (cutWords_of_cut (cut_between_blank blank more)).trans nothing
    | word read =>
      exact (cutWords_of_cut_map (cut_word_blank blank read more)).trans
        (congrArg (read.reverse :: ·) nothing)
    | quoted read => cases closed
  | case2 rest ih => exact ih ((isComplete_cons (by decide) rest).mp complete) closed
  | case3 => rfl
  | case4 c rest other ih =>
    have tail := ih ((isComplete_pair c rest).mp complete) closed
    rw [cutWords_of_cut (cut_between_escape other rest), ← tail]
    exact cutWords_of_cut (cut_between_escape other _)
  | case5 c rest _ _ _ gap ih =>
    have noEscape : c ≠ '\\' := by rintro rfl; cases gap
    have tail := ih ((isComplete_cons noEscape rest).mp complete) closed
    rw [cutWords_of_cut (cut_between_blank gap rest), ← tail]
    exact cutWords_of_cut (cut_between_blank gap _)
  | case6 c rest noQuote _ alone visible ih =>
    rw [Bool.not_eq_true] at visible
    have noEscape := ne_backslash_of_complete complete alone
    have tail := ih ((isComplete_cons noEscape rest).mp complete) closed
    rw [cutWords_of_cut (cut_between_char visible noQuote noEscape rest), ← tail]
    exact cutWords_of_cut (cut_between_char visible noQuote noEscape _)
  | case7 => rfl
  | case8 read c rest other ih =>
    have tail := ih ((isComplete_pair c rest).mp complete) closed
    rw [cutWords_of_cut (cut_word_escape other read rest), ← tail]
    exact cutWords_of_cut (cut_word_escape other read _)
  | case9 read c rest _ _ gap ih =>
    have noEscape : c ≠ '\\' := by rintro rfl; cases gap
    have tail := ih ((isComplete_cons noEscape rest).mp complete) closed
    rw [cutWords_of_cut_map (cut_word_blank gap read rest), ← tail]
    exact cutWords_of_cut_map (cut_word_blank gap read _)
  | case10 read c rest _ alone visible ih =>
    rw [Bool.not_eq_true] at visible
    have noEscape := ne_backslash_of_complete complete alone
    have tail := ih ((isComplete_cons noEscape rest).mp complete) closed
    rw [cutWords_of_cut (cut_word_char visible noEscape read rest), ← tail]
    exact cutWords_of_cut (cut_word_char visible noEscape read _)
  | case11 read rest ih =>
    have rest' := (isComplete_cons (by decide) _).mp complete
    exact ih ((isComplete_cons (by decide) rest).mp rest') closed
  | case12 read rest outside ih =>
    have tail := ih ((isComplete_cons (by decide) rest).mp complete) closed
    have here : rest.head? ≠ some '"' := fun first => by
      obtain ⟨rest', eq⟩ := List.head?_eq_some_iff.mp first
      exact outside rest' eq
    rw [cutWords_of_cut_map (cut_quoted_quote here read), ← tail]
    exact cutWords_of_cut_map (cut_quoted_quote (head?_append_ne_quote blank more here) read)
  | case13 read c rest _ other ih =>
    -- The quote that closes the word stands behind this character, which may be a backslash.
    have behind := complete.tail (quote_mem_of_closed (c :: read) closed) (by decide)
    rw [cutWords_of_cut (cut_quoted_char other read rest), ← ih behind closed]
    exact cutWords_of_cut (cut_quoted_char other read _)

/-! ### Comments behind the words -/

theorem findsPairs_escapePair : FindsPairs escapePair where
  char c rest other := by
    unfold escapePair
    split <;> simp_all
  pair _ := ⟨_, fun _ => rfl⟩

theorem isComplete_protectBlanks (complete : IsComplete text) :
    IsComplete (protectBlanks text) := by
  unfold protectBlanks
  induction complete using IsComplete.induction with
  | nil => exact isComplete_nil
  | char c rest other _ ih =>
    rw [substitute_of_none (findsPairs_escapePair.char c rest other)]
    exact (isComplete_cons other _).mpr ih
  | pair c rest _ ih =>
    have answer : escapePair ('\\' :: c :: rest) =
      some (if isBlank c then [protectedSpace] else ['\\', c], 2) := rfl
    rw [substitute_of_some answer]
    split
    · exact (isComplete_cons (by decide) _).mpr ih
    · exact (isComplete_pair c _).mpr ih

theorem words_append_comment (complete : IsComplete text)
    (closed : (cut .between (protectBlanks text)).2.isQuoted = false) (nonempty : gap ≠ [])
    (blanks : ∀ c ∈ gap, isBlank c) (comment : Text) :
    words (text ++ (gap ++ "\\\"".toList ++ comment)) = words text := by
  have gapComplete : IsComplete gap := by
    rw [← List.append_nil gap]
    exact (isComplete_append (backslash_not_mem blanks)).mpr isComplete_nil
  have protect : protectBlanks (text ++ (gap ++ "\\\"".toList ++ comment)) =
      protectBlanks text ++ (gap ++ "\\\"".toList ++ protectBlanks comment) := by
    have gapKept := protectBlanks_eq_self (noneProtected_of_blanks blanks)
    unfold protectBlanks at gapKept ⊢
    rw [findsPairs_escapePair.substitute_append complete, List.append_assoc,
      findsPairs_escapePair.substitute_append gapComplete, gapKept, List.append_assoc]
    rfl
  obtain ⟨b, gap, rfl⟩ := List.exists_cons_of_ne_nil nonempty
  rw [List.forall_mem_cons] at blanks
  have nothing : cutWords .between (gap ++ "\\\"".toList ++ protectBlanks comment) = [] := by
    rw [List.append_assoc]
    exact cutWords_of_cut (cut_blanks blanks.2 _)
  have same := cutWords_append blanks.1 nothing (isComplete_protectBlanks complete) closed
  rw [words, protect, words, ← same]
  rfl

theorem isComplete_trimStart : IsComplete (trimStart rest) ↔ IsComplete rest := by
  have skipped : '\\' ∉ rest.takeWhile isBlank := fun mem =>
    absurd (List.all_eq_true.mp List.all_takeWhile _ mem) (by decide)
  rw [← isComplete_append skipped, trimStart, List.takeWhile_append_dropWhile]

theorem isComplete_of_control (control : control? line = some rest) (complete : IsComplete line) :
    IsComplete rest := by
  rcases control?_eq_some_iff.mp control with rfl | rfl
  · exact (isComplete_cons (by decide) rest).mp complete
  · exact (isComplete_cons (by decide) rest).mp complete

theorem control?_append (control : control? line = some rest) (more : Text) :
    control? (line ++ more) = some (rest ++ more) := by
  rcases control?_eq_some_iff.mp control with rfl | rfl <;> rfl

theorem trimStart_append (visible : trimStart text ≠ []) (more : Text) :
    trimStart (text ++ more) = trimStart text ++ more := by
  unfold trimStart at visible ⊢
  rw [List.dropWhile_append, if_neg (by simpa using visible)]

/-- A comment behind a blank is none at the start. -/
theorem comment_prefix_append_iff (visible : text ≠ []) (nonempty : gap ≠ [])
    (blanks : ∀ c ∈ gap, isBlank c) (more : Text) :
    "\\\"".toList <+: text ++ (gap ++ more) ↔ "\\\"".toList <+: text := by
  refine prefix_append_iff visible fun c first mem => ?_
  rw [List.head?_append_of_ne_nil _ nonempty] at first
  have blank := blanks c (List.mem_of_mem_head? first)
  obtain rfl : c = '"' := by simpa using mem
  cases blank

/-- A request stays the same, with its name and its arguments, when blanks and a comment follow it,
unless they come to stand inside a word in quotes or its last backslash reaches into them. -/
theorem classify_append_comment (request : classify line = .request name args)
    (complete : IsComplete line) (closed : leavesQuoteOpen line = false) (nonempty : gap ≠ [])
    (blanks : ∀ c ∈ gap, isBlank c) (comment : Text) :
    classify (line ++ gap ++ "\\\"".toList ++ comment) = .request name args := by
  obtain ⟨rest, control, noComment, named⟩ := classify_eq_request_iff.mp request
  have visible : trimStart rest ≠ [] := by
    intro blank
    rw [blank] at named
    cases named
  have behind := isComplete_trimStart.mpr (isComplete_of_control control complete)
  have outside : (cut .between (protectBlanks (trimStart rest))).2.isQuoted = false := by
    simpa [leavesQuoteOpen, control] using closed
  rw [List.append_assoc, List.append_assoc, ← List.append_assoc gap]
  refine classify_eq_request_iff.mpr ⟨_, control?_append control _, ?_⟩
  rw [trimStart_append visible, words_append_comment behind outside nonempty blanks,
    List.append_assoc, comment_prefix_append_iff visible nonempty blanks]
  exact ⟨noComment, named⟩

/-- A line with a quoted word, a protected blank and an even number of backslashes at its end, and a
comment with a quote and a backslash that protects nothing. -/
theorem classify_append_comment_quotes :
    let line := ".B \"say \"\"hi\"\"\" x\\ y\\\\".toList
    let request := Line.request ['B'] ["say \"hi\"".toList, "x y\\\\".toList]
    let gap := "\t ".toList
    let comment := " a \"note\\ \\".toList
    classify line = request ∧ IsComplete line ∧ leavesQuoteOpen line = false ∧ gap ≠ [] ∧
      (∀ c ∈ gap, isBlank c) ∧ classify (line ++ gap ++ "\\\"".toList ++ comment) = request := by
  intro line request gap comment
  have before : classify line = request := by decide +kernel
  have complete : IsComplete line := by decide +kernel
  have closed : leavesQuoteOpen line = false := by decide +kernel
  have nonempty : gap ≠ [] := by decide
  have blanks : ∀ c ∈ gap, isBlank c := List.all_eq_true.mp (by decide)
  exact ⟨before, complete, closed, nonempty, blanks,
    classify_append_comment before complete closed nonempty blanks comment⟩

end ManPage.Line
