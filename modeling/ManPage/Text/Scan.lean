import ManPage.Text.Basic

/-! Scanning a text for pieces of a kind, and putting other text in their place. A finder looks at
the start of a text and answers what stands there and how many characters it takes; the scan asks it
at each position from left to right, goes on behind what it finds, and keeps every other
character. -/

namespace ManPage.Text

/-- What a scan finds at the start of a text, and its width. -/
abbrev Finder (α : Type) := Text → Option (α × Nat)

/-- The scan of a text whose first `skip` characters belong to a piece already found. -/
def scanFrom {α : Type} (find : Finder α) : Nat → Text → List (Char ⊕ α)
  | _, [] => []
  | skip + 1, _ :: rest => scanFrom find skip rest
  | 0, c :: rest =>
    match find (c :: rest) with
    | some (found, width) => .inr found :: scanFrom find (width - 1) rest
    | none => .inl c :: scanFrom find 0 rest

/-- A text as single characters and the pieces that `find` finds among them. -/
def scan {α : Type} (find : Finder α) (text : Text) : List (Char ⊕ α) :=
  scanFrom find 0 text

/-- The pieces that a scan finds, from left to right. -/
def findAll {α : Type} (find : Finder α) (text : Text) : List α :=
  (scan find text).filterMap Sum.getRight?

/-- A text in which each piece that `find` finds gives way to what `find` answers for it. -/
def substitute (find : Finder Text) (text : Text) : Text :=
  (scan find text).flatMap (Sum.elim (fun c => [c]) id)

/-- The members of a list up to the first mark, and each mark with the members that follow it. -/
def runs {α β : Type} (list : List (α ⊕ β)) : List α × List (β × List α) :=
  list.foldr
    (fun item (lead, marked) =>
      match item with
      | .inl a => (a :: lead, marked)
      | .inr mark => ([], (mark, lead) :: marked))
    ([], [])

end ManPage.Text
