import ManPage.Text.Utf8

/-! The lines of a page, read in order. A line ends with a line feed, before which one carriage
return is dropped; a line that is not UTF-8 is read as a fault, and reading can go on behind it. -/

namespace ManPage

inductive ReadError
  | notUtf8
  deriving DecidableEq, Repr

namespace ReadError

def message : ReadError → Text
  | .notUtf8 => "I/O error: stream did not contain valid UTF-8".toList

end ReadError

/-- A line as it stands in the input, without its end. -/
inductive RawLine
  | text (line : Text)
  | fault (error : ReadError)
  deriving DecidableEq, Repr

/-- The lines of a page that are still to be read, the name of the page, and how many lines were
read. -/
structure Input where
  name : Text
  line : Nat := 0
  unread : List RawLine
  deriving DecidableEq, Repr

namespace Input

def dropReturn (line : Text) : Text :=
  (Text.before? '\r' line).getD line

/-- The line that bytes hold. -/
def rawLine (bytes : List UInt8) : RawLine :=
  match Text.ofUtf8? bytes with
  | some line => .text (dropReturn line)
  | none => .fault .notUtf8

def ofBytes (name : Text) (bytes : List UInt8) : Input :=
  { name, unread := (Text.linesWhere (· == 10) bytes).map rawLine }

def ofText (name text : Text) : Input :=
  { name, unread := (Text.linesWhere (· == '\n') text).map fun line => .text (dropReturn line) }

/-- The next line, or `none` at the end of the page. A fault is passed over without being
counted. -/
def next (input : Input) : Except ReadError (Option Text) × Input :=
  match input.unread with
  | [] => (.ok none, input)
  | .text line :: rest => (.ok (some line), { input with line := input.line + 1, unread := rest })
  | .fault error :: rest => (.error error, { input with unread := rest })

/-- How a block of lines ends: with the line that stops it, with the page, or at a fault. -/
inductive Ending
  | stop (line : Text)
  | exhausted
  | fault (error : ReadError)
  deriving DecidableEq, Repr

/-- Lines read together, without the one that stops them. -/
structure Block where
  lines : List Text
  ending : Ending
  deriving DecidableEq, Repr

/-- The block up to the first of `unread` that satisfies `stop` or is a fault, and what is left
behind it. -/
def blockOf (stop : Text → Bool) : List RawLine → Block × List RawLine
  | [] => ({ lines := [], ending := .exhausted }, [])
  | .fault error :: rest => ({ lines := [], ending := .fault error }, rest)
  | .text line :: rest =>
    if stop line then ({ lines := [], ending := .stop line }, rest)
    else
      let (block, left) := blockOf stop rest
      ({ block with lines := line :: block.lines }, left)

/-- How many lines of the page a block takes: a fault is not one. -/
def Block.count (block : Block) : Nat :=
  match block.ending with
  | .stop _ => block.lines.length + 1
  | _ => block.lines.length

/-- Reads the lines up to and including the first that satisfies `stop`. -/
def takeBlock (stop : Text → Bool) (input : Input) : Block × Input :=
  let (block, left) := blockOf stop input.unread
  (block, { input with line := input.line + block.count, unread := left })

/-! Reading takes lines from the start of what is unread, and leaves the rest as it is. -/

theorem next_unread (input : Input) : input.next.2.unread = input.unread.drop 1 := by
  unfold next
  split <;> simp [*]

theorem next_unread_suffix (input : Input) : input.next.2.unread <:+ input.unread :=
  next_unread input ▸ List.drop_suffix 1 input.unread

/-- A line that was read is no longer unread. -/
theorem next_unread_length {input rest : Input} {line : Text}
    (h : input.next = (.ok (some line), rest)) : rest.unread.length < input.unread.length := by
  unfold next at h
  split at h
  · simp at h
  · rename_i unread
    simp only [Prod.mk.injEq] at h
    simp [unread, ← h.2]
  · simp at h

theorem blockOf_suffix (stop : Text → Bool) (unread : List RawLine) :
    (blockOf stop unread).2 <:+ unread := by
  induction unread with
  | nil => exact List.suffix_refl []
  | cons raw rest ih =>
    cases raw with
    | fault error => exact List.suffix_cons _ rest
    | text line =>
      unfold blockOf
      split
      · exact List.suffix_cons _ rest
      · exact ih.trans (List.suffix_cons _ rest)

theorem takeBlock_unread_suffix (stop : Text → Bool) (input : Input) :
    (input.takeBlock stop).2.unread <:+ input.unread :=
  blockOf_suffix stop input.unread

end Input

end ManPage
