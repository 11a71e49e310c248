import ManPage.Proofs.Document.Insertion
import ManPage.Proofs.Document.Markup
import ManPage.Proofs.Text.Cut
import ManPage.Proofs.Text.Lines

/-! The ends of lines. A line ends with a line feed, or with a carriage return and a line feed, and
the last line may go without an end. Whichever ends the lines of a page have, the page is read as
the same lines with the same numbers, and converted to the same document. -/

namespace ManPage

namespace Text

/-- A line that can be told from the end behind it: it holds no line feed, and does not end with a
carriage return. -/
structure IsLine (line : Text) : Prop where
  unbroken : '\n' ∉ line
  ends : line.getLast? ≠ some '\r'

inductive LineEnd
  | feed
  | returnFeed
  deriving DecidableEq, Repr

def LineEnd.text : LineEnd → Text
  | .feed => ['\n']
  | .returnFeed => ['\r', '\n']

/-- A text holds the lines, each with an end of its own. The last line may go without one, unless it
is empty. -/
inductive HoldsLines : List Text → Text → Prop
  | nil : HoldsLines [] []
  | last {line : Text} (nonempty : line ≠ []) : HoldsLines [line] line
  | line (line : Text) (lineEnd : LineEnd) {lines : List Text} {rest : Text}
      (holds : HoldsLines lines rest) : HoldsLines (line :: lines) (line ++ lineEnd.text ++ rest)

theorem IsLine.plain {line : Text} (isLine : IsLine line) : ∀ c ∈ line, (c == '\n') = false :=
  fun _ mem => beq_eq_false_iff_ne.mpr fun feed => isLine.unbroken (feed ▸ mem)

/-- Whatever the lines are, there is a text that holds them. -/
theorem holdsLines_feeds (lines : List Text) :
    HoldsLines lines (lines.flatMap (· ++ LineEnd.feed.text)) := by
  induction lines with
  | nil => exact .nil
  | cons line lines ih => exact .line line .feed ih

end Text

open Text

variable {line text : Text} {lines : List Text} {input : Input}

namespace Input

/-! ### The lines of a text -/

theorem dropReturn_return (line : Text) : dropReturn (line ++ ['\r']) = line := by
  rw [dropReturn, before?_eq_some_iff.mpr rfl, Option.getD_some]

theorem dropReturn_line (isLine : IsLine line) : dropReturn line = line := by
  rw [dropReturn, before?, if_neg isLine.ends, Option.getD_none]

theorem map_dropReturn_linesWhere (holds : HoldsLines lines text)
    (whole : ∀ line ∈ lines, IsLine line) :
    (linesWhere (· == '\n') text).map dropReturn = lines := by
  induction holds with
  | nil => rfl
  | @last line nonempty =>
    have isLine := whole line List.mem_cons_self
    rw [linesWhere_last isLine.plain nonempty, List.map_singleton, dropReturn_line isLine]
  | @line line lineEnd lines rest _ ih =>
    have isLine := whole line List.mem_cons_self
    have behind := ih fun other mem => whole other (List.mem_cons_of_mem line mem)
    cases lineEnd with
    | feed =>
      have split : line ++ LineEnd.feed.text ++ rest = line ++ '\n' :: rest :=
        List.append_assoc line _ rest
      rw [split, linesWhere_line isLine.plain rfl, List.map_cons, dropReturn_line isLine, behind]
    | returnFeed =>
      have split : line ++ LineEnd.returnFeed.text ++ rest = (line ++ ['\r']) ++ '\n' :: rest := by
        simp [LineEnd.text]
      have plain : ∀ c ∈ line ++ ['\r'], (c == '\n') = false :=
        List.forall_mem_append.mpr ⟨isLine.plain, List.forall_mem_singleton.mpr rfl⟩
      rw [split, linesWhere_line plain rfl, List.map_cons, dropReturn_return, behind]

theorem ofText_of_holdsLines (holds : HoldsLines lines text) (whole : ∀ line ∈ lines, IsLine line)
    (name : Text) : ofText name text = { name, unread := lines.map .text } := by
  rw [ofText, ← map_dropReturn_linesWhere holds whole, List.map_map]
  rfl

/-- The bytes of a text are read as the text is. -/
theorem ofBytes_toUtf8 (name text : Text) : ofBytes name (toUtf8 text) = ofText name text := by
  have raw : rawLine ∘ toUtf8 = fun line => .text (dropReturn line) := by
    funext line
    rw [Function.comp_apply, rawLine, ofUtf8?_toUtf8]
  rw [ofBytes, linesWhere_toUtf8, List.map_map, raw, ofText]

/-! ### Reading to the end -/

/-- The page behind the next `count` reads. -/
def skip (input : Input) : Nat → Input
  | 0 => input
  | count + 1 => (input.skip count).next.2

/-- Reading yields the lines in order, and then the end of the page again and again. Behind each
read the number of the page is that of the last line read. -/
structure Yields (input : Input) (lines : List Text) : Prop where
  value : ∀ count, (input.skip count).next.1 = .ok lines[count]?
  number : ∀ count, (input.skip count).line = min count lines.length

theorem next_of_unread (unread : input.unread = lines.map .text) :
    input.next.1 = .ok lines.head? ∧
      input.next.2 = input.past (min 1 lines.length) (lines.tail.map .text) := by
  cases lines with
  | nil =>
    have stay : input.past 0 [] = input := by
      rw [past, ← show input.unread = [] from unread]
      rfl
    rw [List.length_nil, Nat.min_zero, List.tail_nil, List.map_nil, stay, next, unread]
    exact ⟨rfl, rfl⟩
  | cons line rest =>
    rw [next_of_cons unread, List.length_cons, Nat.min_eq_left (Nat.le_add_left 1 rest.length)]
    exact ⟨rfl, rfl⟩

theorem skip_of_unread (unread : input.unread = lines.map .text) (count : Nat) :
    input.skip count = input.past (min count lines.length) ((lines.drop count).map .text) := by
  induction count with
  | zero =>
    rw [skip, Nat.zero_min, List.drop_zero, ← unread]
    rfl
  | succ count ih =>
    have counted : min count lines.length + min 1 (lines.drop count).length =
        min (count + 1) lines.length := by
      rw [List.length_drop]
      omega
    rw [skip, ih, (next_of_unread rfl).2, past_past, counted, List.tail_drop]

theorem yields_of_unread (start : input.line = 0) (unread : input.unread = lines.map .text) :
    input.Yields lines where
  value count := by
    rw [skip_of_unread unread, (next_of_unread rfl).1, List.head?_drop]
  number count := by
    rw [skip_of_unread unread, past, start, Nat.zero_add]

end Input

/-! ### Conversions -/

namespace Document

/-- The ends of lines do not matter. Every text that holds the same lines, and the bytes of each
such text, are read as these lines, with their numbers, and under any options the conversions of all
these pages succeed and are the same: their output, their problems and what they leave. -/
theorem convert_line_ends (whole : ∀ line ∈ lines, IsLine line) (name : Text) :
    (∀ text, HoldsLines lines text →
      (Input.ofText name text).Yields lines ∧ (Input.ofBytes name (toUtf8 text)).Yields lines) ∧
    ∀ options, ∃ conversion problems, conversion.result = .ok problems ∧
      ∀ text, HoldsLines lines text →
        convert options (.ofText name text) = conversion ∧
          convert options (.ofBytes name (toUtf8 text)) = conversion := by
  constructor
  · intro text holds
    rw [Input.ofBytes_toUtf8, Input.ofText_of_holdsLines holds whole]
    exact ⟨Input.yields_of_unread rfl rfl, Input.yields_of_unread rfl rfl⟩
  · intro options
    let page : Input := { name, unread := lines.map .text }
    have read : ∀ text, HoldsLines lines text → Input.ofText name text = page :=
      fun text holds => Input.ofText_of_holdsLines holds whole name
    have success : (run options {} page).failure = none := by
      rw [← read _ (holdsLines_feeds lines)]
      exact run_ofText options name _
    refine ⟨convert options page, (run options {} page).state.problems, ?_, fun text holds => ?_⟩
    · rw [result_convert, success]
      rfl
    · rw [Input.ofBytes_toUtf8, read text holds]
      exact ⟨rfl, rfl⟩

/-- Both ends, a carriage return inside a line, an empty line, and a last line without an end. -/
theorem convert_line_ends_mixed :
    let lines := [".TP", "a\rb", "", ".XX"].map String.toList
    let mixed := ".TP\r\na\rb\n\r\n.XX".toList
    let feeds := ".TP\na\rb\n\n.XX\n".toList
    (∀ line ∈ lines, IsLine line) ∧ HoldsLines lines mixed ∧ HoldsLines lines feeds ∧
      (Input.ofText [] mixed).Yields lines ∧
      convert {} (.ofText [] mixed) = convert {} (.ofBytes [] (toUtf8 feeds)) ∧
      (convert {} (.ofText [] mixed)).result = .ok [⟨[], 4, .unknownRequest ['X', 'X']⟩] := by
  intro lines mixed feeds
  have unbroken : ∀ line ∈ lines, '\n' ∉ line := by decide
  have ends : ∀ line ∈ lines, line.getLast? ≠ some '\r' := by decide
  have whole : ∀ line ∈ lines, IsLine line := fun line mem => ⟨unbroken line mem, ends line mem⟩
  have holds : HoldsLines lines mixed :=
    .line ".TP".toList .returnFeed <| .line "a\rb".toList .feed <| .line [] .returnFeed <|
      .last (by decide)
  have holds' : HoldsLines lines feeds := holdsLines_feeds lines
  obtain ⟨reads, same⟩ := convert_line_ends whole []
  obtain ⟨conversion, problems, -, equal⟩ := same {}
  exact ⟨whole, holds, holds', (reads mixed holds).1,
    (equal mixed holds).1.trans (equal feeds holds').2.symm, by decide +kernel⟩

end Document

end ManPage
