import ManPage.Table.Block
import ManPage.Document.Entry

/-! What reading ahead takes from a page. Whatever reads lines takes them from the start of the
page and counts them, ends at the first line that cannot be read, and does not look at the lines
behind the last one that it takes, unless it takes them all. -/

namespace ManPage

open Input (Block)

/-- A way to read lines from the start of a page: what it yields, unless a line could not be read,
and the page behind them. -/
abbrev Reader (α : Type) := Input → Except ReadError α × Input

/-- The page with other unread lines. -/
def Input.withUnread (input : Input) (unread : List RawLine) : Input :=
  { input with unread }

/-- `rest` is the page behind the lines `used` of `input`, which `left` follows there. -/
structure Took (input : Input) (used : List Text) (left : List RawLine) (rest : Input) : Prop where
  unread : input.unread = used.map .text ++ left
  line : rest.line = input.line + used.length
  name : rest.name = input.name

/-- The contract of a reader. -/
structure Reads {α : Type} (reader : Reader α) : Prop where
  success : ∀ {input rest value}, reader input = (.ok value, rest) →
    ∃ used, Took input used rest.unread rest ∧
      (rest.unread ≠ [] → ∀ other,
        reader (input.withUnread (used.map .text ++ other)) = (.ok value, rest.withUnread other))
  failure : ∀ {input rest error}, reader input = (.error error, rest) →
    ∃ used, Took input used (.fault error :: rest.unread) rest

variable {α β : Type}

theorem Took.trans {input mid rest : Input} {first second : List Text} {left : List RawLine}
    (hf : Took input first mid.unread mid) (hs : Took mid second left rest) :
    Took input (first ++ second) left rest := by
  refine ⟨?_, ?_, hs.name.trans hf.name⟩
  · rw [hf.unread, hs.unread, List.map_append, List.append_assoc]
  · rw [hs.line, hf.line, List.length_append]
    omega

theorem Took.split {input rest : Input} {first second : List Text} {left : List RawLine}
    (took : Took input (first ++ second) left rest) :
    ∃ mid, Took input first mid.unread mid ∧ Took mid second left rest := by
  refine ⟨{ name := input.name, line := input.line + first.length,
            unread := second.map .text ++ left }, ⟨?_, rfl, rfl⟩, rfl, ?_, took.name⟩
  · rw [took.unread, List.map_append, List.append_assoc]
  · rw [took.line, List.length_append, Nat.add_assoc]

namespace Reads

/-- A reader that takes nothing, and yields what does not depend on the lines. -/
theorem pure {f : Input → α} (h : ∀ input unread, f (input.withUnread unread) = f input) :
    Reads fun input => (.ok (f input), input) := by
  constructor
  · intro input rest value eq
    obtain ⟨rfl, rfl⟩ : f input = value ∧ input = rest := by simpa using eq
    refine ⟨[], ⟨rfl, rfl, rfl⟩, fun _ other => ?_⟩
    show (Except.ok (f (input.withUnread other)), input.withUnread other) = _
    rw [h]
  · intro input rest error eq
    simp at eq

theorem map {reader : Reader α} {reader' : Reader β} (hr : Reads reader) (f : α → β)
    (eq : ∀ input, reader' input = ((reader input).1.map f, (reader input).2)) :
    Reads reader' := by
  constructor
  · intro input rest value h
    rw [eq] at h
    cases hv : reader input with
    | mk outcome behind =>
      cases outcome with
      | error error => simp [hv, Except.map] at h
      | ok found =>
        obtain ⟨rfl, rfl⟩ : f found = value ∧ behind = rest := by simpa [hv, Except.map] using h
        obtain ⟨used, took, same⟩ := hr.success hv
        refine ⟨used, took, fun more other => ?_⟩
        rw [eq, same more other]
        rfl
  · intro input rest error h
    rw [eq] at h
    cases hv : reader input with
    | mk outcome behind =>
      cases outcome with
      | ok found => simp [hv, Except.map] at h
      | error error' =>
        obtain ⟨rfl, rfl⟩ : error' = error ∧ behind = rest := by simpa [hv, Except.map] using h
        exact hr.failure hv

/-- One reader behind another. -/
theorem bind {reader : Reader α} {next : α → Reader β} {both : Reader β} (hr : Reads reader)
    (hn : ∀ value, Reads (next value))
    (ok : ∀ input value rest, reader input = (.ok value, rest) → both input = next value rest)
    (failed : ∀ input error rest, reader input = (.error error, rest) →
      both input = (.error error, rest)) : Reads both := by
  constructor
  · intro input rest value h
    cases hv : reader input with
    | mk outcome mid =>
      cases outcome with
      | error error => simp [failed input error mid hv] at h
      | ok found =>
        rw [ok input found mid hv] at h
        obtain ⟨first, tookFirst, sameFirst⟩ := hr.success hv
        obtain ⟨second, tookSecond, sameSecond⟩ := (hn found).success h
        refine ⟨first ++ second, tookFirst.trans tookSecond, fun more other => ?_⟩
        have midMore : mid.unread ≠ [] := by
          rw [tookSecond.unread]
          simp [more]
        have read := sameFirst midMore (second.map .text ++ other)
        rw [List.map_append, List.append_assoc, ok _ _ _ read]
        exact sameSecond more other
  · intro input rest error h
    cases hv : reader input with
    | mk outcome mid =>
      cases outcome with
      | error error' =>
        obtain ⟨rfl, rfl⟩ : error' = error ∧ mid = rest := by
          simpa [failed input error' mid hv] using h
        exact hr.failure hv
      | ok found =>
        rw [ok input found mid hv] at h
        obtain ⟨first, tookFirst, -⟩ := hr.success hv
        obtain ⟨second, tookSecond⟩ := (hn found).failure h
        exact ⟨first ++ second, tookFirst.trans tookSecond⟩

end Reads

/-! ### Lines and blocks -/

namespace Input

theorem next_reads : Reads next := by
  constructor
  · intro input rest value h
    unfold next at h
    split at h
    · rename_i unread
      obtain ⟨rfl, rfl⟩ : none = value ∧ input = rest := by simpa using h
      exact ⟨[], ⟨rfl, rfl, rfl⟩, fun more => absurd unread more⟩
    · rename_i line left unread
      simp only [Prod.mk.injEq, Except.ok.injEq] at h
      obtain ⟨rfl, rfl⟩ := h
      exact ⟨[line], ⟨unread, rfl, rfl⟩, fun _ _ => rfl⟩
    · simp at h
  · intro input rest error h
    unfold next at h
    split at h
    · simp at h
    · simp at h
    · rename_i error' left unread
      cases h
      exact ⟨[], ⟨unread, rfl, rfl⟩⟩

/-- The lines in front of the first that satisfies `stop`, which is `last`, or else all lines. -/
structure UpTo (stop : Text → Prop) (lines : List Text) (last : Option Text)
    (left : List RawLine) : Prop where
  inside : ∀ line ∈ lines, ¬stop line
  stops : ∀ line ∈ last, stop line
  rest : last = none → left = []

variable {stop : Text → Bool} {lines : List Text} {last : Option Text} {left : List RawLine}

theorem UpTo.cons {line : Text} (outside : ¬stop line = true)
    (upTo : UpTo (stop · = true) lines last left) :
    UpTo (stop · = true) (line :: lines) last left :=
  ⟨List.forall_mem_cons.mpr ⟨outside, upTo.inside⟩, upTo.stops, upTo.rest⟩

/-- What a block of a page is: the lines up to one that stops it or to the end of the page, or the
lines up to one that cannot be read. -/
theorem upTo_or_fault (stop : Text → Bool) (unread : List RawLine) :
    (∃ lines last left, UpTo (stop · = true) lines last left ∧
      unread = (lines ++ last.toList).map .text ++ left) ∨
    ∃ (lines : List Text) (error : ReadError) (left : List RawLine),
      (∀ line ∈ lines, ¬stop line = true) ∧ unread = lines.map .text ++ .fault error :: left := by
  induction unread with
  | nil => exact .inl ⟨[], none, [], ⟨by simp, by simp, fun _ => rfl⟩, rfl⟩
  | cons raw rest ih =>
    cases raw with
    | fault error => exact .inr ⟨[], error, rest, by simp, rfl⟩
    | text line =>
      by_cases stops : stop line = true
      · exact .inl ⟨[], some line, rest, ⟨by simp, by simpa using stops, (nomatch ·)⟩, rfl⟩
      · rcases ih with ⟨lines, last, left, upTo, rfl⟩ | ⟨lines, error, left, outside, rfl⟩
        · exact .inl ⟨line :: lines, last, left, upTo.cons stops, rfl⟩
        · exact .inr ⟨line :: lines, error, left,
            List.forall_mem_cons.mpr ⟨stops, outside⟩, rfl⟩

theorem blockOf_cons {line : Text} (outside : ¬stop line = true) (unread : List RawLine) :
    blockOf stop (.text line :: unread) =
      ({ (blockOf stop unread).1 with lines := line :: (blockOf stop unread).1.lines },
        (blockOf stop unread).2) := by
  rw [blockOf, if_neg outside]

theorem blockOf_upTo (upTo : UpTo (stop · = true) lines last left) :
    blockOf stop ((lines ++ last.toList).map .text ++ left) =
      ({ lines, ending := last.elim .exhausted .stop }, left) := by
  obtain ⟨inside, stops, rest⟩ := upTo
  induction lines with
  | nil =>
    cases last with
    | none =>
      rw [rest rfl]
      rfl
    | some line =>
      show blockOf stop (.text line :: left) = _
      rw [blockOf, if_pos (stops line rfl)]
      rfl
  | cons line lines ih =>
    rw [List.cons_append, List.map_cons, List.cons_append,
      blockOf_cons (inside line List.mem_cons_self),
      ih fun other mem => inside other (List.mem_cons_of_mem _ mem)]

theorem blockOf_fault {error : ReadError} (outside : ∀ line ∈ lines, ¬stop line = true) :
    blockOf stop (lines.map .text ++ .fault error :: left) =
      ({ lines, ending := .fault error }, left) := by
  induction lines with
  | nil => rfl
  | cons line lines ih =>
    rw [List.map_cons, List.cons_append, blockOf_cons (outside line List.mem_cons_self),
      ih fun other mem => outside other (List.mem_cons_of_mem _ mem)]

/-- A block that ends at a line that cannot be read has failed. -/
def readBlock (stop : Text → Bool) : Reader Block := fun input =>
  match (input.takeBlock stop).1.ending with
  | .fault error => (.error error, (input.takeBlock stop).2)
  | _ => (.ok (input.takeBlock stop).1, (input.takeBlock stop).2)

theorem readBlock_upTo {input : Input} (upTo : UpTo (stop · = true) lines last left)
    (unread : input.unread = (lines ++ last.toList).map .text ++ left) :
    readBlock stop input = (.ok { lines, ending := last.elim .exhausted .stop },
      { input with line := input.line + (lines ++ last.toList).length, unread := left }) := by
  unfold readBlock takeBlock
  rw [unread, blockOf_upTo upTo]
  cases last <;> simp [Block.count]

theorem readBlock_fault {input : Input} {error : ReadError}
    (outside : ∀ line ∈ lines, ¬stop line = true)
    (unread : input.unread = lines.map .text ++ .fault error :: left) :
    readBlock stop input = (.error error,
      { input with line := input.line + lines.length, unread := left }) := by
  unfold readBlock takeBlock
  rw [unread, blockOf_fault outside]
  rfl

/-- A block was read, and the lines up to its end were taken. -/
theorem readBlock_eq_ok_iff {input rest : Input} {block : Block} :
    readBlock stop input = (.ok block, rest) ↔
      ∃ last : Option Text, block.ending = last.elim .exhausted .stop ∧
        UpTo (stop · = true) block.lines last rest.unread ∧
        Took input (block.lines ++ last.toList) rest.unread rest := by
  constructor
  · intro read
    rcases upTo_or_fault stop input.unread with ⟨lines, last, left, upTo, unread⟩ |
      ⟨lines, error, left, outside, unread⟩
    · rw [readBlock_upTo upTo unread] at read
      cases read
      exact ⟨last, rfl, upTo, unread, rfl, rfl⟩
    · rw [readBlock_fault outside unread] at read
      cases read
  · rintro ⟨last, ending, upTo, took⟩
    obtain ⟨lines, ending'⟩ := block
    obtain ⟨name, line, unread⟩ := rest
    obtain ⟨taken, rfl, rfl⟩ := took
    obtain rfl : ending' = last.elim .exhausted .stop := ending
    exact readBlock_upTo upTo taken

theorem readBlock_reads (stop : Text → Bool) : Reads (readBlock stop) := by
  constructor
  · intro input rest block read
    obtain ⟨last, ending, upTo, took⟩ := readBlock_eq_ok_iff.mp read
    refine ⟨_, took, fun more other => readBlock_eq_ok_iff.mpr ⟨last, ending, ?_, ?_⟩⟩
    · exact ⟨upTo.inside, upTo.stops, fun ended => absurd (upTo.rest ended) more⟩
    · exact ⟨rfl, took.line, took.name⟩
  · intro input rest error read
    rcases upTo_or_fault stop input.unread with ⟨lines, last, left, upTo, unread⟩ |
      ⟨lines, error', left, outside, unread⟩
    · rw [readBlock_upTo upTo unread] at read
      cases read
    · rw [readBlock_fault outside unread] at read
      cases read
      exact ⟨lines, unread, rfl, rfl⟩

end Input

/-- What reading ahead comes to, without the notes. -/
def Read.outcome (read : Read α) : Except ReadError α × Input :=
  (read.value, read.input)

/-! ### Tables -/

namespace Table

theorem Format.read_eq_map (input : Input) : (Format.read input).outcome =
    ((Input.readBlock isLast input).1.map ofHeader, (Input.readBlock isLast input).2) := by
  unfold Format.read Input.readBlock
  cases h : (input.takeBlock isLast).1.ending <;> simp [h, Read.outcome, Except.map]

theorem Format.read_reads : Reads fun input => (Format.read input).outcome :=
  (Input.readBlock_reads isLast).map ofHeader Format.read_eq_map

theorem readBody_eq_map (format : Format) (input : Input) : (readBody format input).outcome =
    ((Input.readBlock isEnd input).1.map fun body => render format body.lines,
      (Input.readBlock isEnd input).2) := by
  unfold readBody Input.readBlock
  cases h : (input.takeBlock isEnd).1.ending <;> simp [h, Read.outcome, Except.map]

theorem readBody_reads (format : Format) :
    Reads fun input => (readBody format input).outcome :=
  (Input.readBlock_reads isEnd).map _ (readBody_eq_map format)

theorem read_of_ok {input rest : Input} {format : Format}
    (header : (Format.read input).outcome = (.ok format, rest)) :
    (read input).outcome = (readBody format rest).outcome := by
  unfold read
  cases found : Format.read input with
  | mk value input' notes =>
    obtain ⟨rfl, rfl⟩ := by simpa [found, Read.outcome] using header
    rfl

theorem read_of_error {input rest : Input} {error : ReadError}
    (header : (Format.read input).outcome = (.error error, rest)) :
    (read input).outcome = (.error error, rest) := by
  unfold read
  cases found : Format.read input with
  | mk value input' notes =>
    obtain ⟨rfl, rfl⟩ := by simpa [found, Read.outcome] using header
    rfl

theorem read_reads : Reads fun input => (read input).outcome :=
  Format.read_reads.bind readBody_reads (fun _ _ _ => read_of_ok) fun _ _ _ => read_of_error

end Table

/-! ### The texts of requests -/

namespace Document

theorem readText_reads (args : List Text) : Reads fun input => (readText args input).outcome := by
  by_cases bare : args.isEmpty = true
  · refine Input.next_reads.map id fun input => ?_
    rw [readText, if_pos bare]
    cases h : input.next.1 <;> simp [h, Read.outcome, Except.map]
  · have given : (fun input => (readText args input).outcome) =
        fun input => (.ok (some (Text.join [' '] args)), input) := by
      funext input
      rw [readText, if_neg bare]
      rfl
    rw [given]
    exact .pure fun _ _ => rfl

theorem readFont_eq_map (font : Font) (args : List Text) (input : Input) :
    (readFont font args input).outcome =
      ((readText args input).outcome.1.map (Option.map fun text => font.wrap (Inline.render text)),
        (readText args input).outcome.2) := by
  unfold readFont
  rcases h : (readText args input).value with error | _ | text <;>
    simp [h, Read.outcome, Except.map]

theorem readFont_reads (font : Font) (args : List Text) :
    Reads fun input => (readFont font args input).outcome :=
  (readText_reads args).map _ (readFont_eq_map font args)

theorem entryOfLine_reads (line : Text) :
    Reads fun input => (entryOfLine line input).outcome := by
  unfold entryOfLine
  split
  · exact readFont_reads _ _
  · exact .pure fun _ _ => rfl
  · exact .pure fun _ _ => rfl

theorem readEntry_reads : Reads fun input => (readEntry input).outcome := by
  let behind (next : Option Text) : Reader (Option Text) :=
    next.elim (fun input => (.ok none, input)) fun line input => (entryOfLine line input).outcome
  have reads : ∀ next, Reads (behind next) := by
    intro next
    cases next with
    | none => exact .pure fun _ _ => rfl
    | some line => exact entryOfLine_reads line
  refine Input.next_reads.bind reads (fun input value rest h => ?_) fun input error rest h => ?_
  · unfold readEntry
    rw [h]
    cases value <;> rfl
  · unfold readEntry
    rw [h]
    rfl

theorem skipBlock_eq_map (input : Input) : (skipBlock input).outcome =
    ((Input.readBlock endsSkippedBlock input).1.map fun _ => none,
      (Input.readBlock endsSkippedBlock input).2) := by
  unfold skipBlock Input.readBlock
  cases h : (input.takeBlock endsSkippedBlock).1.ending <;> simp [h, Read.outcome, Except.map]

theorem skipBlock_reads : Reads fun input => (skipBlock input).outcome :=
  (Input.readBlock_reads endsSkippedBlock).map _ skipBlock_eq_map

end Document

end ManPage
