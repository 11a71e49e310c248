import ManPage.Proofs.Yaml.Literal
import ManPage.Proofs.Yaml.Quotes

/-! Every text reads back from the scalar that it is written as, whatever characters it has. The
scalar is made of printable characters, ends its last line, and keeps the lines behind its first
off the margin. -/

namespace ManPage.Yaml

open Text

variable {text : Text} {c : Char} {atStart : Bool}

/-! ### Plain scalars -/

theorem isSpace_of_not_isSeparation (other : isSeparation c = false) : isSpace c = false := by
  simp only [isSeparation, Bool.or_eq_false_iff] at other
  exact other.1.1.1

theorem exists_of_not_endsToken (goes_on : endsToken text = false) :
    ∃ c rest, text = c :: rest ∧ isSpace c = false := by
  cases text with
  | nil => cases goes_on
  | cons c rest => exact ⟨c, rest, rfl, isSpace_of_not_isSeparation goes_on⟩

/-- A text without markup holds no mark that ends a plain scalar. -/
theorem pairs_of_not_holdsMarkup {previous : Char} (plain : holdsMarkup previous text = false) :
    hasPair isSpace (· == '#') (previous :: text) = false ∧
      hasPair (· == ':') isSpace text = false ∧ ':' ∉ text.getLast? := by
  induction text generalizing previous with
  | nil => simp [hasPair]
  | cons c rest ih =>
    simp only [holdsMarkup, Bool.or_eq_false_iff] at plain
    obtain ⟨⟨colon, hash⟩, behind⟩ := plain
    obtain ⟨hashes, colons, last⟩ := ih behind
    refine ⟨?_, ?_, ?_⟩
    · rw [hasPair, hashes]
      by_cases mark : c = '#'
      · have other : isSeparation previous = false := by simpa [mark] using hash
        simp [isSpace_of_not_isSeparation other]
      · simp [mark]
    · by_cases mark : c = ':'
      · obtain ⟨d, rest, rfl, no_space⟩ := exists_of_not_endsToken (by simpa [mark] using colon)
        simp [hasPair, no_space, colons]
      · cases rest <;> simp_all [hasPair]
    · cases rest with
      | nil =>
        rintro mark
        obtain rfl : c = ':' := by simpa using mark
        simp [endsToken] at colon
      | cons d rest => simpa using last

theorem startsPlain_of_not_startsAsMarkup (nonempty : text ≠ []) (margin : ' ' ∉ text.head?)
    (plain : startsAsMarkup text = false) : startsPlain text := by
  obtain ⟨c, rest, rfl⟩ := List.exists_cons_of_ne_nil nonempty
  simp only [startsAsMarkup, Bool.or_eq_false_iff] at plain
  obtain ⟨indicator, dash⟩ := plain
  rw [startsPlain]
  split
  · next mark =>
    rw [mark, Bool.true_and] at dash
    obtain ⟨d, rest, rfl, no_space⟩ := exists_of_not_endsToken dash
    simp [no_space]
  · have no_space : isSpace c = false := beq_eq_false_iff_ne.mpr fun space => margin (space ▸ rfl)
    rw [indicator, no_space]
    rfl

/-- A text that may be written plain is a plain scalar. -/
theorem isPlain_of_allowsPlain (nonempty : text ≠ []) (allowed : allowsPlain text) :
    isPlain text := by
  obtain ⟨c, rest, rfl⟩ := List.exists_cons_of_ne_nil nonempty
  simp only [allowsPlain, readsAsMarkup, Bool.and_eq_true, Bool.not_eq_true', bne_iff_ne, ne_eq,
    Bool.or_eq_false_iff] at allowed
  obtain ⟨⟨⟨⟨-, unbroken⟩, head⟩, last⟩, ⟨⟨starts, holds⟩, -⟩, -⟩ := allowed
  have begins := startsPlain_of_not_startsAsMarkup nonempty (by simpa using head) starts
  obtain ⟨hashes, colons, no_colon⟩ := pairs_of_not_holdsMarkup holds
  have first_colon : hasPair (· == ':') isSpace (c :: rest) = false := by
    cases rest with
    | nil => rfl
    | cons d rest =>
      rw [hasPair, colons, Bool.or_false]
      by_cases mark : c = ':'
      · have no_space : isSpace d = false := by simpa [startsPlain, mark] using begins
        simp [no_space]
      · simp [mark]
  have last_colon : ':' ∉ (c :: rest).getLast? := by
    cases rest with
    | nil =>
      intro mark
      obtain rfl : c = ':' := by simpa using mark
      simp [startsPlain] at begins
    | cons d rest => simpa using no_colon
  have ends : (c :: rest).getLast?.any (fun c => isSpace c || c == ':') = false := by
    rw [Option.any_eq_false]
    rintro d found
    have no_space : d ≠ ' ' := fun space => last (space ▸ found)
    have no_colon : d ≠ ':' := fun colon => last_colon (colon ▸ found)
    simp [isSpace, no_space, no_colon]
  simp [isPlain, begins, unbroken, ends, first_colon, hashes]

theorem readScalar?_of_startsPlain (starts : startsPlain text) (rest : Text) :
    readScalar? (text ++ rest) = readPlain? (text ++ rest) := by
  cases text with
  | nil => cases starts
  | cons c behind =>
    have other : c ≠ '\'' ∧ c ≠ '"' ∧ c ≠ '|' := by
      refine ⟨?_, ?_, ?_⟩ <;>
      · rintro rfl
        cases starts
    rw [List.cons_append, readScalar?] <;> simp_all

theorem readScalar?_plain (clear : isAmbiguous text = false) (allowed : allowsPlain text) :
    readScalar? (text ++ ['\n']) = some text := by
  simp only [isAmbiguous, Bool.or_eq_false_iff] at clear
  obtain ⟨⟨⟨⟨null, truth⟩, integer⟩, float⟩, -⟩ := clear
  have nonempty : text ≠ [] := by
    rintro rfl
    cases null
  have plain := isPlain_of_allowsPlain nonempty allowed
  have starts : startsPlain text := by
    simp only [isPlain, Bool.and_eq_true] at plain
    exact plain.1.1.1.1
  have resolves : resolvesToText text := by
    simp [resolvesToText, null, truth, integer, float]
  rw [readScalar?_of_startsPlain starts, readPlain?, before?_eq_some_iff.mpr rfl,
    Option.filter_some, plain, resolves]
  rfl

/-! ### The styles -/

/-- A text with a scalar it may be written as, in one of the styles. -/
inductive Written (text : Text) : Text → Prop
  | plain (clear : isAmbiguous text = false) (allowed : allowsPlain text) :
      Written text (text ++ ['\n'])
  | singleQuoted (allowed : allowsSingleQuotes text) (unfed : '\n' ∉ text) :
      Written text ('\'' :: (singleQuotedInside false text ++ ['\'', '\n']))
  | doubleQuoted : Written text ('"' :: (text.flatMap doubleQuotedChar ++ ['"', '\n']))
  | literal (nonempty : text ≠ []) (allowed : allowsLiteral text) :
      Written text (literalHead text ++ literalInside true (endLine text))

theorem writeScalar_written (text : Text) : Written text (writeScalar text) := by
  have ends {style : Style} (other : style ≠ .literal) :
      (if style = .literal ∧ text.getLast?.any isBreak then [] else ['\n']) = ['\n'] :=
    if_neg fun literal => other literal.1
  have quoted : Written text (writeAs text .doubleQuoted ++ ['\n']) := by
    show Written text ('"' :: (text.flatMap doubleQuotedChar ++ ['"']) ++ ['\n'])
    rw [List.cons_append, List.append_assoc]
    exact .doubleQuoted
  show Written text (writeAs text (style text) ++
    if style text = .literal ∧ text.getLast?.any isBreak then [] else ['\n'])
  unfold style
  by_cases fed : '\n' ∈ text
  · rw [if_pos (List.contains_iff_mem.mpr fed)]
    by_cases allowed : allowsLiteral text
    · rw [if_pos allowed]
      simp only [true_and]
      rw [writeAs_literal]
      exact .literal (List.ne_nil_of_mem fed) allowed
    · rw [if_neg allowed, ends (by decide)]
      exact quoted
  · rw [if_neg (mt List.contains_iff_mem.mp fed)]
    split
    · next plain =>
      rw [Bool.and_eq_true, Bool.not_eq_true'] at plain
      rw [ends (by decide)]
      exact .plain plain.1 plain.2
    · split
      · next allowed =>
        rw [ends (by decide)]
        show Written text ('\'' :: (singleQuotedInside false text ++ ['\'']) ++ ['\n'])
        rw [List.cons_append, List.append_assoc]
        exact .singleQuoted allowed fed
      · rw [ends (by decide)]
        exact quoted

theorem Written.read {scalar : Text} (written : Written text scalar) :
    readScalar? scalar = some text := by
  cases written with
  | plain clear allowed => exact readScalar?_plain clear allowed
  | singleQuoted allowed unfed => exact readScalar?_singleQuoted allowed unfed
  | doubleQuoted => exact readScalar?_doubleQuoted text
  | literal nonempty _ => exact readScalar?_literal nonempty

/-! ### The form of scalars -/

theorem isPrintable_of_mem (plain : needsDoubleQuotes text = false) (inside : c ∈ text) :
    isPrintable c := by
  simp only [needsDoubleQuotes, Bool.or_eq_false_iff, Bool.not_eq_false'] at plain
  exact List.all_eq_true.mp plain.1 c inside

/-- The head of a literal block is a line of printable characters. -/
theorem literalHead_form (text : Text) : ∃ mark, literalHead text = mark ++ ['\n'] ∧
    ∀ c ∈ mark, isPrintable c ∧ isBreak c = false := by
  refine ⟨_, rfl, fun c inside => ?_⟩
  have form : ['|', '2', '-', '+'].all fun c => isPrintable c && !isBreak c := by decide
  suffices c ∈ ['|', '2', '-', '+'] by simpa using List.all_eq_true.mp form c this
  rw [List.mem_append, List.mem_cons] at inside
  obtain (rfl | inside) | inside := inside
  · decide
  · split at inside <;> simp_all
  · have mark := chomping_mem text
    simp only [List.mem_cons, List.not_mem_nil, or_false] at mark
    obtain mark | mark | mark := mark <;> simp_all

theorem mem_endLine (inside : c ∈ endLine text) : c ∈ text ∨ c = '\n' := by
  unfold endLine at inside
  split at inside
  · exact .inl inside
  · simpa using inside

theorem getLast?_endLine (text : Text) : ∀ c ∈ (endLine text).getLast?, isBreak c := by
  unfold endLine
  split
  · next ended =>
    intro c last
    rw [last] at ended
    exact ended
  · simp [isBreak]

namespace Written

variable {scalar : Text}

theorem ne_nil (written : Written text scalar) : scalar ≠ [] := by
  rintro rfl
  cases written.read

theorem isPrintable (written : Written text scalar) : ∀ c ∈ scalar, isPrintable c := by
  have blank : ∀ c ∈ indent, Yaml.isPrintable c := List.all_eq_true.mp (by decide)
  intro c inside
  cases written with
  | plain _ allowed =>
    have plain : needsDoubleQuotes text = false := by simp_all [allowsPlain]
    obtain inside | rfl : c ∈ text ∨ c = '\n' := by simpa using inside
    · exact isPrintable_of_mem plain inside
    · decide
  | singleQuoted allowed =>
    have plain : needsDoubleQuotes text = false := by simp_all [allowsSingleQuotes]
    obtain rfl | inside | rfl | rfl : c = '\'' ∨ c ∈ singleQuotedInside false text ∨ c = '\'' ∨
      c = '\n' := by simpa using inside
    · decide
    · exact (mem_singleQuotedInside inside).elim (isPrintable_of_mem plain) (blank c)
    · decide
    · decide
  | doubleQuoted =>
    obtain rfl | ⟨d, -, inside⟩ | rfl | rfl : c = '"' ∨ (∃ d ∈ text, c ∈ doubleQuotedChar d) ∨
      c = '"' ∨ c = '\n' := by simpa using inside
    · decide
    · exact (doubleQuotedChar_form inside).1
    · decide
    · decide
  | literal _ allowed =>
    have plain : needsDoubleQuotes text = false := by simp_all [allowsLiteral]
    obtain ⟨head, eq, form⟩ := literalHead_form text
    obtain inside | rfl | inside : c ∈ head ∨ c = '\n' ∨ c ∈ literalInside true (endLine text) := by
      simpa [eq] using inside
    · exact (form c inside).1
    · decide
    · obtain inside | inside := mem_literalInside inside
      · obtain inside | rfl := mem_endLine inside
        · exact isPrintable_of_mem plain inside
        · decide
      · exact blank c inside

/-- The lines of a scalar behind its first are empty or indented. -/
theorem staysIndented (written : Written text scalar) : StaysIndented scalar := by
  have last : StaysIndented ['\n'] := List.isChain_singleton _
  cases written with
  | plain _ allowed =>
    simp only [allowsPlain, Bool.and_eq_true, Bool.not_eq_true', List.any_eq_false] at allowed
    exact .append_unbroken (by simpa using allowed.1.1.1.2) last
  | singleQuoted =>
    have unbroken : ∀ c ∈ ['\''], isBreak c = false := List.forall_mem_singleton.mpr rfl
    exact .append_unbroken unbroken (indentsFrom_singleQuotedInside false text).2
  | doubleQuoted =>
    have quotes : ∀ c ∈ '"' :: (text.flatMap doubleQuotedChar ++ ['"']), isBreak c = false := by
      intro c inside
      obtain rfl | ⟨d, -, inside⟩ : c = '"' ∨ ∃ d ∈ text, c ∈ doubleQuotedChar d := by
        simpa [or_comm] using inside
      · decide
      · exact (doubleQuotedChar_form inside).2
    simpa using StaysIndented.append_unbroken quotes last
  | literal =>
    obtain ⟨head, eq, form⟩ := literalHead_form text
    have lines := indentsFrom_literalInside true (endLine text)
    rw [eq, List.append_assoc]
    exact .append_unbroken (fun c inside => (form c inside).2)
      (staysIndented_cons.mpr ⟨fun _ => lines.1 rfl, lines.2⟩)

/-- A scalar ends its last line. -/
theorem ends (written : Written text scalar) : ∀ c ∈ scalar.getLast?, isBreak c := by
  cases written with
  | plain => simp [isBreak]
  | singleQuoted => simp [List.getLast?_cons, isBreak]
  | doubleQuoted => simp [List.getLast?_cons, isBreak]
  | literal =>
    obtain ⟨head, eq, -⟩ := literalHead_form text
    intro c last
    rw [List.getLast?_append, getLast?_literalInside] at last
    obtain last | ⟨-, last⟩ := Option.or_eq_some_iff.mp last
    · exact getLast?_endLine text c last
    · obtain rfl : '\n' = c := by simpa [eq] using last
      rfl

end Written

end ManPage.Yaml
