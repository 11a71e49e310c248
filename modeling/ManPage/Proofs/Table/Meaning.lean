import ManPage.Proofs.Line.Request
import ManPage.Proofs.Reading
import ManPage.Proofs.Table.Header
import Mathlib.Data.List.TakeWhile

/-! What a table means. Its header goes up to the first line that ends with a period, and its body
up to the request that ends the table. The body lines that are neither rules nor requests are rows,
with a cell for each field between separators. -/

namespace ManPage

namespace Table

open Text
open Input (UpTo readBlock readBlock_eq_ok_iff)

variable {format : Format} {separator : Char} {formats k : Nat} {input rest : Input}
  {line html tag row : Text} {header body : List Text} {stop : Option Text} {left : List RawLine}

/-! ### The lines of a table -/

/-- A line that ends a header: it ends with a period, apart from blanks. -/
def EndsHeader (line : Text) : Prop :=
  ∃ start, trimEnd line = start ++ ['.']

/-- A line that ends a table: the request `TE`, which blanks may precede. -/
def EndsTable (line : Text) : Prop :=
  ∃ c blanks rest, (c = '.' ∨ c = '\'') ∧ (∀ d ∈ blanks, isBlank d) ∧
    line = c :: (blanks ++ 'T' :: 'E' :: rest)

/-- The lines of a table: its header, its body, and the line that ends it, unless it goes on to the
end of the page. -/
def Cut (header body : List Text) (stop : Option Text) (left : List RawLine) : Prop :=
  ∃ front last, header = front ++ last.toList ∧
    UpTo EndsHeader front last ((body ++ stop.toList).map .text ++ left) ∧
    UpTo EndsTable body stop left

theorem isLast_iff : Format.isLast line ↔ EndsHeader line := by
  rw [Format.isLast, beq_iff_eq, List.getLast?_eq_some_iff]
  rfl

theorem isPrefixOf_trimStart_iff {rest : Text} :
    "TE".toList.isPrefixOf (trimStart rest) ↔
      ∃ blanks after, (∀ d ∈ blanks, isBlank d) ∧ rest = blanks ++ 'T' :: 'E' :: after := by
  rw [List.isPrefixOf_iff_prefix]
  constructor
  · rintro ⟨after, eq⟩
    refine ⟨rest.takeWhile isBlank, after, fun d mem => List.mem_takeWhile_imp mem, ?_⟩
    exact (List.takeWhile_append_dropWhile).symm.trans (congrArg _ eq.symm)
  · rintro ⟨blanks, after, blank, rfl⟩
    rw [trimStart, List.dropWhile_append_of_pos blank]
    exact ⟨after, rfl⟩

theorem isEnd_iff : isEnd line ↔ EndsTable line := by
  simp only [isEnd, Option.any_eq_true, Line.control?_eq_some_iff, isPrefixOf_trimStart_iff]
  constructor
  · rintro ⟨_, control, blanks, after, blank, rfl⟩
    rcases control with rfl | rfl
    · exact ⟨'.', blanks, after, .inl rfl, blank, rfl⟩
    · exact ⟨'\'', blanks, after, .inr rfl, blank, rfl⟩
  · rintro ⟨c, blanks, after, rfl | rfl, blank, rfl⟩
    · exact ⟨_, .inl rfl, blanks, after, blank, rfl⟩
    · exact ⟨_, .inr rfl, blanks, after, blank, rfl⟩

/-! ### The markup of a table -/

/-- A line that stands for no row: a rule, or a control line. -/
def IsPassed (line : Text) : Prop :=
  trim line = ['_'] ∨ trim line = ['='] ∨ ∃ rest, line = '.' :: rest ∨ line = '\'' :: rest

/-- The markup of a row: a cell for each field of its line between separators. -/
def IsRow (separator : Char) (tag line row : Text) : Prop :=
  ∃ fields : List Text, fields ≠ [] ∧ (∀ field ∈ fields, separator ∉ field) ∧
    join [separator] fields = line ∧
    row = "<tr>".toList ++ fields.flatMap (fun field =>
      '<' :: tag ++ '>' :: Inline.render (trim field) ++ "</".toList ++ tag ++ ['>']) ++
      "</tr>".toList

/-- The markup of body lines that `k` rows precede. A row with a format behind its own is a
heading. -/
inductive Rows (separator : Char) (formats : Nat) : Nat → List Text → Text → Prop
  | nil (k : Nat) : Rows separator formats k [] []
  | pass {k : Nat} {line : Text} {body : List Text} {rows : Text} (passed : IsPassed line)
      (rest : Rows separator formats k body rows) : Rows separator formats k (line :: body) rows
  | row {k : Nat} {line row : Text} {body : List Text} {rows : Text} (stands : ¬IsPassed line)
      (isRow : IsRow separator (if k + 1 < formats then "th" else "td").toList line row)
      (rest : Rows separator formats (k + 1) body rows) :
      Rows separator formats k (line :: body) ('\n' :: row ++ rows)

/-- The markup of a table. -/
def Means (header body : List Text) (html : Text) : Prop :=
  ∃ separator opening rows, InForce header separator ∧
    (Centered header ∧ opening = "<table align=\"center\">".toList ∨
      ¬Centered header ∧ opening = "<table>".toList) ∧
    Rows separator (header.countP isFormats) 0 body rows ∧
    html = opening ++ rows ++ "\n</table>".toList

theorem isRow_iff : Table.isRow line ↔ ¬IsPassed line := by
  rw [IsPassed, ← Line.isControl_iff]
  simp [Table.isRow, isRule, and_assoc]

theorem isRow_renderRow_iff : IsRow format.separator (format.cellTag k) line row ↔
    row = renderRow format k line := by
  have cells : renderRow format k line = "<tr>".toList ++
      (line.splitOn format.separator).flatMap
        (fun field => renderCell (format.cellTag k) (trim field)) ++ "</tr>".toList := by
    show "<tr>".toList ++ ((line.splitOn format.separator).map trim).flatMap
      (renderCell (format.cellTag k)) ++ "</tr>".toList = _
    rw [List.flatMap_map]
  rw [cells]
  constructor
  · rintro ⟨fields, nonempty, inside, rfl, rfl⟩
    rw [join, List.splitOn_intercalate _ inside nonempty]
    rfl
  · rintro rfl
    refine ⟨line.splitOn format.separator, List.splitOn_ne_nil _ _, fun field mem => ?_,
      List.intercalate_splitOn _, rfl⟩
    obtain ⟨-, -, -, plain, -⟩ := mem_splitOnP_iff.mp mem
    exact fun inside => by simpa using plain _ inside

/-- The rows of a rendered table, of which the first has the index `k`. -/
def renderRows (format : Format) (k : Nat) (body : List Text) : Text :=
  ((body.filter Table.isRow).mapIdx fun i => renderRow format (k + i)).flatMap ('\n' :: ·)

theorem renderRows_pass (passed : IsPassed line) (format : Format) (k : Nat) (body : List Text) :
    renderRows format k (line :: body) = renderRows format k body := by
  have not : ¬Table.isRow line = true := fun is => isRow_iff.mp is passed
  rw [renderRows, List.filter_cons_of_neg not, renderRows]

theorem renderRows_row (stands : ¬IsPassed line) (format : Format) (k : Nat) (body : List Text) :
    renderRows format k (line :: body) =
      '\n' :: renderRow format k line ++ renderRows format (k + 1) body := by
  rw [renderRows, List.filter_cons_of_pos (isRow_iff.mpr stands), List.mapIdx_cons,
    List.flatMap_cons, renderRows]
  simp only [Nat.add_zero, Nat.add_assoc, Nat.add_comm 1]

theorem cellTag_eq_if (format : Format) (k : Nat) :
    format.cellTag k = (if k + 1 < format.rows.length then "th" else "td").toList := by
  unfold Format.cellTag
  split <;> rfl

theorem rows_iff {rows : Text} : Rows format.separator format.rows.length k body rows ↔
    rows = renderRows format k body := by
  constructor
  · intro markup
    induction markup with
    | nil k => rfl
    | pass passed _ ih => rw [renderRows_pass passed, ih]
    | row stands isRow _ ih =>
      rw [← cellTag_eq_if] at isRow
      rw [renderRows_row stands, isRow_renderRow_iff.mp isRow, ih]
  · rintro rfl
    induction body generalizing k with
    | nil => exact .nil k
    | cons line body ih =>
      by_cases passed : IsPassed line
      · rw [renderRows_pass passed]
        exact .pass passed ih
      · rw [renderRows_row passed]
        refine .row passed ?_ ih
        rw [← cellTag_eq_if]
        exact isRow_renderRow_iff.mpr rfl

theorem means_iff (holds : Holds header format) :
    Means header body html ↔ html = render format body := by
  have opens : (if format.centered then "<table align=\"center\">".toList else "<table>".toList) =
      opening format := rfl
  have rendered : render format body =
      opening format ++ renderRows format 0 body ++ "\n</table>".toList := by
    simp only [render, renderRows, Nat.zero_add]
  rw [rendered, Means]
  constructor
  · rintro ⟨separator, start, rows, inForce, centered, markup, rfl⟩
    obtain rfl := inForce.unique holds.separator
    rw [← holds.rows] at markup
    rw [rows_iff.mp markup]
    rw [← holds.centered] at centered
    rcases centered with ⟨yes, rfl⟩ | ⟨no, rfl⟩
    · rw [opening, if_pos yes]
    · rw [opening, if_neg no]
  · rintro rfl
    refine ⟨format.separator, opening format, _, holds.separator, ?_, ?_, rfl⟩
    · rw [← holds.centered]
      cases centered : format.centered
      · exact .inr ⟨by simp, by simp [opening, centered]⟩
      · exact .inl ⟨rfl, by simp [opening, centered]⟩
    · rw [← holds.rows]
      exact rows_iff.mpr rfl

/-! ### Reading a table -/

theorem outcome_read_eq_ok_iff : (read input).outcome = (.ok html, rest) ↔
    ∃ head mid block, readBlock Format.isLast input = (.ok head, mid) ∧
      readBlock isEnd mid = (.ok block, rest) ∧
      html = render (Format.ofHeader head) block.lines := by
  have header := Format.read_eq_map input
  rcases readHeader : readBlock Format.isLast input with ⟨error | head, mid⟩
  · rw [readHeader] at header
    rw [read_of_error header]
    simp
  · rw [readHeader] at header
    rw [read_of_ok header, readBody_eq_map]
    rcases readBody : readBlock isEnd mid with ⟨error | block, rest'⟩
    · simp [readBody, Except.map]
    · simp only [Except.map, Prod.mk.injEq, Except.ok.injEq]
      constructor
      · rintro ⟨rfl, rfl⟩
        exact ⟨head, mid, block, ⟨rfl, rfl⟩, readBody, rfl⟩
      · rintro ⟨_, _, _, ⟨rfl, rfl⟩, again, rfl⟩
        cases readBody.symm.trans again
        exact ⟨rfl, rfl⟩

theorem holds_ofHeader {head : Input.Block} {last : Option Text}
    (ending : head.ending = last.elim .exhausted .stop) :
    Holds (head.lines ++ last.toList) (Format.ofHeader head) := by
  have format : Format.ofHeader head = (head.lines ++ last.toList).foldl Format.applyLine {} := by
    unfold Format.ofHeader
    cases last with
    | none => simp [ending]
    | some line => simp [ending]
  rw [format]
  exact holds_foldl _

/-- What is read of a table is the markup that its lines mean, and these are the lines that are
taken. A table is read if no line fails. -/
theorem read_meaning (input : Input) :
    (∀ html rest, (read input).outcome = (.ok html, rest) ↔
      ∃ header body stop, Cut header body stop rest.unread ∧
        Took input (header ++ body ++ stop.toList) rest.unread rest ∧ Means header body html) ∧
    ((∀ raw ∈ input.unread, ∃ line, raw = .text line) → ∃ html, (read input).value = .ok html) := by
  have ends : (fun line => Format.isLast line = true) = EndsHeader :=
    funext fun _ => propext isLast_iff
  have stops : (fun line => isEnd line = true) = EndsTable := funext fun _ => propext isEnd_iff
  refine ⟨fun html rest => ?_, fun readable => ?_⟩
  · rw [outcome_read_eq_ok_iff]
    constructor
    · rintro ⟨head, mid, block, readHead, readBody, means⟩
      obtain ⟨last, ending, upTo, took⟩ := readBlock_eq_ok_iff.mp readHead
      obtain ⟨stop, -, upTo', took'⟩ := readBlock_eq_ok_iff.mp readBody
      rw [took'.unread, ends] at upTo
      rw [stops] at upTo'
      refine ⟨head.lines ++ last.toList, block.lines, stop, ⟨head.lines, last, rfl, upTo, upTo'⟩,
        ?_, (means_iff (holds_ofHeader ending)).mpr means⟩
      rw [List.append_assoc]
      exact took.trans took'
    · rintro ⟨_, body, stop, ⟨front, last, rfl, upTo, upTo'⟩, took, means⟩
      rw [List.append_assoc] at took
      obtain ⟨mid, took, took'⟩ := took.split
      rw [← took'.unread, ← ends] at upTo
      rw [← stops] at upTo'
      let head : Input.Block := { lines := front, ending := last.elim .exhausted .stop }
      let block : Input.Block := { lines := body, ending := stop.elim .exhausted .stop }
      exact ⟨head, mid, block, readBlock_eq_ok_iff.mpr ⟨last, rfl, upTo, took⟩,
        readBlock_eq_ok_iff.mpr ⟨stop, rfl, upTo', took'⟩,
        (means_iff (holds_ofHeader rfl)).mp means⟩
  · cases value : (read input).value with
    | ok html => exact ⟨html, rfl⟩
    | error error =>
      have failed : (read input).outcome = (.error error, (read input).input) := by
        rw [Read.outcome, value]
      obtain ⟨used, took⟩ := read_reads.failure failed
      obtain ⟨line, eq⟩ := readable (.fault error) (by simp [took.unread])
      cases eq

/-- The row behind the rule is the second, and so not a heading: there are two rows of formats. -/
theorem read_meaning_centered :
    let lines := ["box, CENTER tab(:);", "l l", "l l. ", "a:b", "_", ".sp", " c : d", "' TE", "e"]
    let page : Input := { name := "a.1".toList, unread := lines.map fun line => .text line.toList }
    let html := ("<table align=\"center\">\n<tr><th>a</th><th>b</th></tr>\n" ++
      "<tr><td>c</td><td>d</td></tr>\n</table>").toList
    (∃ html, (read page).value = .ok html) ∧ ∃ header body stop, Cut header body stop [.text ['e']] ∧
      Took page (header ++ body ++ stop.toList) [.text ['e']] (read page).input ∧
      Means header body html := by
  intro lines page html
  obtain ⟨means, readable⟩ := read_meaning page
  have unread : (read page).input.unread = [.text ['e']] := by decide +kernel
  have value : (read page).value = .ok html := by decide +kernel
  have read : (read page).outcome = (.ok html, (read page).input) := by rw [Read.outcome, value]
  obtain ⟨header, body, stop, cut, took, markup⟩ := (means html _).mp read
  rw [unread] at cut took
  exact ⟨readable (by simp [page, lines]), header, body, stop, cut, took, markup⟩

end Table

end ManPage
