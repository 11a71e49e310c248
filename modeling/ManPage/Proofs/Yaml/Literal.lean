import ManPage.Proofs.Text.Cut
import ManPage.Proofs.Yaml.Reader

/-! Literal blocks read back. The lines of a block are indented, those that are empty apart, and
what its head says about the breaks at the end is what the text needs. -/

namespace ManPage.Yaml

open Text

variable {text : Text} {b : Char} {atStart : Bool}

/-- A text with the end of its last line. -/
def endLine (text : Text) : Text :=
  if text.getLast?.any isBreak then text else text ++ ['\n']

/-! ### Indentation -/

theorem literalInside_append_break (ends : isBreak b) (text : Text) :
    literalInside atStart (text ++ [b]) = literalInside atStart text ++ [b] := by
  induction text generalizing atStart with
  | nil => simp [literalInside, ends]
  | cons c rest ih =>
    rw [List.cons_append, literalInside, literalInside]
    split <;> simp [ih]

/-- A block is written as the lines of its text, all with their ends. -/
theorem writeAs_literal (text : Text) :
    writeAs text .literal ++ (if text.getLast?.any isBreak then [] else ['\n']) =
      literalHead text ++ literalInside true (endLine text) := by
  show literalHead text ++ literalInside true text ++ _ = _
  unfold endLine
  by_cases ended : text.getLast?.any isBreak
  · rw [if_pos ended, if_pos ended, List.append_nil]
  · rw [if_neg ended, if_neg ended, literalInside_append_break rfl, List.append_assoc]

theorem mem_literalInside {c : Char} (inside : c ∈ literalInside atStart text) :
    c ∈ text ∨ c ∈ indent := by
  induction text generalizing atStart with
  | nil => cases inside
  | cons d rest ih =>
    rw [List.mem_cons, or_assoc]
    rw [literalInside] at inside
    split at inside
    · exact (List.mem_cons.mp inside).imp_right ih
    · rw [List.mem_append, List.mem_cons] at inside
      obtain inside | inside | inside := inside
      · exact .inr (.inr (mem_margin inside))
      · exact .inl inside
      · exact .inr (ih inside)

theorem getLast?_literalInside (text : Text) :
    (literalInside atStart text).getLast? = text.getLast? := by
  induction text generalizing atStart with
  | nil => rfl
  | cons c rest ih =>
    rw [literalInside]
    split
    · rw [List.getLast?_cons, List.getLast?_cons, ih]
    · rw [List.getLast?_append, List.getLast?_cons, List.getLast?_cons, ih, Option.some_or]

theorem indentsFrom_literalInside (atStart : Bool) (text : Text) :
    IndentsFrom atStart (literalInside atStart text) := by
  induction text generalizing atStart with
  | nil => simp [literalInside, IndentsFrom, StaysIndented]
  | cons c rest ih =>
    rw [literalInside]
    split
    · next ending => exact .cons_break ending (ih true)
    · next unbroken => exact .append_margin [c] (by simpa using unbroken) (ih false)

theorem unindentFrom_break (ends : isBreak b) (width left : Nat) (rest : Text) :
    unindentFrom width left (b :: rest) = (unindentFrom width width rest).map (b :: ·) := by
  cases left <;> simp [unindentFrom, ends]

/-- The lines of a block lose the indentation that they were given. -/
theorem unindentFrom_inside (atStart : Bool) (text : Text) :
    unindentFrom 2 (if atStart then 2 else 0) (literalInside atStart text) = some text := by
  induction text generalizing atStart with
  | nil => rfl
  | cons c rest ih =>
    by_cases ending : isBreak c
    · rw [literalInside, if_pos ending, unindentFrom_break ending]
      exact congrArg (·.map (c :: ·)) (ih true)
    · have line : unindentFrom 2 0 (c :: literalInside false rest) = some (c :: rest) := by
        rw [unindentFrom, if_neg ending]
        exact congrArg (·.map (c :: ·)) (ih false)
      rw [literalInside, if_neg ending]
      cases atStart with
      | false => exact line
      | true => exact line

/-- The indentation of a block can be told from its first line, if that begins with no blank. -/
theorem blockWidthFrom_inside {c : Char} (visible : (isSpace c || isBreak c) = false)
    (rest : Text) : blockWidthFrom 0 (literalInside true (c :: rest)) = 2 := by
  obtain ⟨no_space, no_break⟩ := Bool.or_eq_false_iff.mp visible
  rw [literalInside, if_neg (by simp [no_break])]
  show blockWidthFrom 2 (c :: literalInside false rest) = 2
  rw [blockWidthFrom, if_neg (by simp [no_space]), if_neg (by simp [no_break])]

/-! ### Chomping -/

theorem chomping_strip {last : Char} (inside : ¬isBreak last) (front : Text) :
    chomping (front ++ [last]) = ['-'] := by
  unfold chomping
  rw [List.reverse_concat]
  cases front.reverse <;> simp [inside]

theorem chomping_pair {previous last : Char} (ends : isBreak last) (front : Text) :
    chomping (front ++ [previous] ++ [last]) = if isBreak previous then ['+'] else [] := by
  unfold chomping
  rw [List.reverse_concat, List.reverse_concat]
  simp [ends]

/-- A block that ends with one break behind a line loses and regains it. -/
theorem clip_line {previous last : Char} (ends : isBreak last) (inside : ¬isBreak previous)
    (front : Text) :
    Chomping.clip.apply (front ++ [previous] ++ [last]) = front ++ [previous] ++ [last] := by
  have kept : (front ++ [previous] ++ [last]).rdropWhile isBreak = front ++ [previous] := by
    rw [List.rdropWhile_concat_pos _ _ _ ends, List.rdropWhile_concat_neg _ _ _ inside]
  have dropped : (front ++ [previous] ++ [last]).rtakeWhile isBreak = [last] := by
    rw [List.rtakeWhile_concat_pos _ _ _ ends, List.rtakeWhile_concat_neg _ _ _ inside]
    rfl
  rw [Chomping.apply, kept, dropped]
  simp

/-- What the head of a block says about the breaks at its end gives the text back. -/
theorem ofMark?_chomping (nonempty : text ≠ []) : ∃ chomped, Chomping.ofMark? (chomping text) =
    some chomped ∧ chomped.apply (endLine text) = text := by
  obtain rfl | ⟨front, last, rfl⟩ := List.eq_nil_or_concat' text
  · exact absurd rfl nonempty
  by_cases ended : isBreak last
  · have whole : endLine (front ++ [last]) = front ++ [last] := by simp [endLine, ended]
    rw [whole]
    obtain rfl | ⟨front, previous, rfl⟩ := List.eq_nil_or_concat' front
    · refine ⟨.keep, ?_, rfl⟩
      have mark : chomping ([] ++ [last]) = ['+'] := by simp [chomping, ended]
      rw [mark]
      rfl
    · rw [chomping_pair ended]
      by_cases empty : isBreak previous
      · rw [if_pos empty]
        exact ⟨.keep, rfl, rfl⟩
      · rw [if_neg empty]
        exact ⟨.clip, rfl, clip_line ended empty front⟩
  · have whole : endLine (front ++ [last]) = front ++ [last] ++ ['\n'] := by simp [endLine, ended]
    rw [chomping_strip ended]
    refine ⟨.strip, rfl, ?_⟩
    rw [whole, Chomping.apply, List.rdropWhile_concat_pos _ _ _ rfl,
      List.rdropWhile_concat_neg _ _ _ ended]

theorem chomping_mem (text : Text) : chomping text ∈ [['-'], ['+'], []] := by
  unfold chomping
  repeat' split
  all_goals simp

/-! ### Blocks -/

/-- The head of a block reads back, with the indentation where it is given. -/
theorem blockHead?_chomping {chomped : Chomping}
    (mark : Chomping.ofMark? (chomping text) = some chomped) (said : Bool) :
    blockHead? ((if said then ['2'] else []) ++ chomping text) =
      some (if said then some 2 else none, chomped) := by
  cases said with
  | true =>
    show (Chomping.ofMark? (chomping text)).map _ = _
    rw [mark]
    rfl
  | false =>
    have no_digit : ∀ mark ∈ [['-'], ['+'], []], (mark.head?.bind (digit? 10)) = none := by decide
    show blockHead? (chomping text) = _
    rw [blockHead?, no_digit _ (chomping_mem text)]
    show (Chomping.ofMark? (chomping text)).map _ = _
    rw [mark]
    rfl

theorem readScalar?_literal (nonempty : text ≠ []) :
    readScalar? (literalHead text ++ literalInside true (endLine text)) = some text := by
  obtain ⟨chomped, mark, apply⟩ := ofMark?_chomping nonempty
  obtain ⟨c, rest, rfl⟩ := List.exists_cons_of_ne_nil nonempty
  obtain ⟨behind, full⟩ : ∃ behind, endLine (c :: rest) = c :: behind := by
    unfold endLine
    split
    · exact ⟨rest, rfl⟩
    · exact ⟨rest ++ ['\n'], rfl⟩
  have head : '\n' ∉ (if isSpace c || isBreak c then ['2'] else []) ++ chomping (c :: rest) := by
    have marks : ∀ mark ∈ [['-'], ['+'], []], '\n' ∉ mark := by decide
    have := marks _ (chomping_mem (c :: rest))
    split <;> simp_all
  show readLiteral? ((if isSpace c || isBreak c then ['2'] else []) ++ chomping (c :: rest) ++
    ['\n'] ++ literalInside true (endLine (c :: rest))) = _
  rw [List.append_assoc _ ['\n'], List.singleton_append, readLiteral?,
    cutAt?_eq_some_iff.mpr ⟨rfl, head⟩, Option.bind_some]
  dsimp only
  rw [blockHead?_chomping mark, Option.bind_some]
  dsimp only
  have width : (if isSpace c || isBreak c then some 2 else none).getD
      (max 1 (blockWidthFrom 0 (literalInside true (endLine (c :: rest))))) = 2 := by
    split
    · rfl
    · next visible =>
      rw [full, blockWidthFrom_inside (by simpa using visible)]
      rfl
  rw [width]
  have lines := unindentFrom_inside true (endLine (c :: rest))
  rw [if_pos rfl] at lines
  rw [lines, Option.map_some, apply]

end ManPage.Yaml
