import ManPage.Proofs.Inline.Escape
import ManPage.Proofs.Text.Substitution

/-! The escapes that stand for a glyph, as they are written. They are finitely many texts, none of
which begins another. So the steps for special characters, named strings and angle brackets come to
one step, which looks for these texts and for the brackets. -/

namespace ManPage.Inline

open Text Markup

/-! ### How names are written -/

/-- A name with the text that `name?` reads it from. -/
inductive Spells : Text → Text → Prop
  | pair {a b : Char} : isCodeChar a → isCodeChar b → Spells ['(', a, b] [a, b]
  | bracketed {name : Text} : name ≠ [] → (∀ c ∈ name, isNameChar c) →
      Spells ('[' :: (name ++ [']'])) name

variable {text name spelled glyph : Text} {width : Nat}

theorem name?_eq_some_iff : name? text = some (name, width) ↔
    ∃ spelled, Spells spelled name ∧ spelled <+: text ∧ width = spelled.length := by
  constructor
  · intro found
    unfold name? at found
    split at found
    · rename_i a b rest
      rw [Option.ite_none_right_eq_some, Bool.and_eq_true] at found
      obtain ⟨⟨first, second⟩, eq⟩ := found
      cases eq
      exact ⟨_, .pair first second, ⟨rest, rfl⟩, rfl⟩
    · rename_i rest
      dsimp only at found
      split at found
      · cases found
      · rename_i closed
        cases found
        rw [Bool.or_eq_true, not_or, List.isEmpty_iff, bne_iff_ne, Decidable.not_not] at closed
        obtain ⟨nonempty, next⟩ := closed
        refine ⟨_, .bracketed nonempty (List.all_eq_true.mp List.all_takeWhile), ?_, by simp⟩
        obtain ⟨left, eq⟩ := List.head?_eq_some_iff.mp next
        refine ⟨left, ?_⟩
        have split := List.take_append_drop (rest.takeWhile isNameChar).length rest
        rw [eq, ← List.prefix_iff_eq_take.mp (List.takeWhile_prefix _)] at split
        simpa using split
    · cases found
  · rintro ⟨spelled, spells, ⟨rest, rfl⟩, rfl⟩
    cases spells with
    | pair first second => simp [name?, first, second]
    | @bracketed name nonempty chars =>
      have closing : isNameChar ']' = false := by decide
      have whole : (name ++ ']' :: rest).takeWhile isNameChar = name := by
        rw [List.takeWhile_append_of_pos chars, List.takeWhile_cons_of_neg (by simp [closing]),
          List.append_nil]
      simp [name?, whole, nonempty]

/-- A name with the text that `shortName?` reads it from. -/
inductive ShortSpells : Text → Text → Prop
  | letter {c : Char} : isCodeChar c → c ≠ '(' → c ≠ '[' → ShortSpells [c] [c]
  | name {spelled name : Text} : Spells spelled name → ShortSpells spelled name

theorem Spells.begins (spells : Spells spelled name) :
    ∃ c rest, spelled = c :: rest ∧ (c = '(' ∨ c = '[') := by
  cases spells with
  | pair => exact ⟨_, _, rfl, .inl rfl⟩
  | bracketed => exact ⟨_, _, rfl, .inr rfl⟩

theorem shortName?_eq_some_iff : shortName? text = some (name, width) ↔
    ∃ spelled, ShortSpells spelled name ∧ spelled <+: text ∧ width = spelled.length := by
  cases text with
  | nil =>
    constructor
    · intro found
      cases found
    · rintro ⟨spelled, spells, begins, -⟩
      rw [List.prefix_nil.mp begins] at spells
      cases spells with
      | name spells =>
        obtain ⟨c, rest, eq, -⟩ := spells.begins
        cases eq
  | cons c rest =>
    rw [shortName?]
    by_cases long : c = '(' ∨ c = '['
    · rw [if_pos long, name?_eq_some_iff]
      constructor
      · rintro ⟨spelled, spells, begins⟩
        exact ⟨spelled, .name spells, begins⟩
      · rintro ⟨spelled, spells, begins, eq⟩
        cases spells with
        | letter _ first second =>
          obtain rfl := (List.cons_prefix_cons.mp begins).1
          exact absurd long (not_or.mpr ⟨first, second⟩)
        | name spells => exact ⟨spelled, spells, begins, eq⟩
    · rw [if_neg long]
      constructor
      · intro found
        obtain ⟨code, eq⟩ := Option.ite_none_right_eq_some.mp found
        cases eq
        rw [not_or] at long
        exact ⟨[c], .letter code long.1 long.2, ⟨rest, rfl⟩, rfl⟩
      · rintro ⟨spelled, spells, begins, rfl⟩
        cases spells with
        | letter code =>
          obtain rfl := (List.cons_prefix_cons.mp begins).1
          rw [if_pos code]
          rfl
        | name spells =>
          obtain ⟨d, rest', rfl, opening⟩ := spells.begins
          obtain rfl := (List.cons_prefix_cons.mp begins).1
          exact absurd opening long

/-! ### The forms -/

/-- How a name of an escape can be written: in brackets, or, if it has two characters, behind a
parenthesis, or, if it has one, alone. -/
def spellings (name : Text) : List Text :=
  ['[' :: (name ++ [']']), match name with | [c] => [c] | _ => '(' :: name]

theorem ShortSpells.mem_spellings (spells : ShortSpells spelled name) :
    spelled ∈ spellings name := by
  cases spells with
  | letter => simp [spellings]
  | name spells => cases spells <;> simp [spellings]

theorem ShortSpells.plain (spells : ShortSpells spelled name) : '\\' ∉ spelled := by
  have code {c : Char} (code : isCodeChar c) : '\\' ≠ c := by
    rintro rfl
    revert code
    decide
  cases spells with
  | letter first => simpa using code first
  | name spells =>
    cases spells with
    | pair first second => simp [code first, code second]
    | bracketed _ chars =>
      have inside : '\\' ∉ name := fun mem => absurd (chars _ mem) (by decide)
      simp [inside]

/-- A name that can be written as it is by any of its spellings. -/
structure IsName (name : Text) : Prop where
  length : name.length = 1 ∨ name.length = 2
  chars : ∀ c ∈ name, isNameChar c
  first : avoids "([".toList name

theorem IsName.shortSpells (is : IsName name) (spelled_ : spelled ∈ spellings name) :
    ShortSpells spelled name := by
  have code : ∀ c ∈ name, isCodeChar c := fun c mem => (Bool.and_eq_true _ _ ▸ is.chars c mem).1
  have nonempty : name ≠ [] := by
    rintro rfl
    exact absurd is.length (by decide)
  rcases List.mem_cons.mp spelled_ with rfl | alone
  · exact .name (.bracketed nonempty is.chars)
  · obtain rfl := List.mem_singleton.mp alone
    match name, is with
    | [c], is =>
      obtain ⟨parenthesis, bracket⟩ : '(' ≠ c ∧ '[' ≠ c := by
        simpa [avoids_iff] using is.first
      exact .letter (code c (by simp)) parenthesis.symm bracket.symm
    | [a, b], _ => exact .name (.pair (code a (by simp)) (code b (by simp)))

/-- The escapes of the names of `table`, which stand behind a backslash and `sign`, each with its
glyph. -/
def formsOf (sign : Text) (table : List (Text × Text)) : List (Text × Text) :=
  table.flatMap fun (name, glyph) =>
    (spellings name).map fun spelled => ('\\' :: (sign ++ spelled), glyph)

/-- A finder of escapes as one of the glyphs that they stand for. -/
def glyphs (find : Finder NamedEscape) : Finder Text := fun text =>
  (find text).bind fun (escape, width) => escape.glyph.map fun glyph => (glyph, width)

/-- `find` finds the escapes that begin with a backslash and `sign`, behind which `read` reads a
name of `table`. -/
structure Names (sign : Text) (read : Finder Text) (table : List (Text × Text))
    (find : Finder NamedEscape) : Prop where
  find_eq : ∀ rest, find ('\\' :: (sign ++ rest)) = (read rest).map fun (name, width) =>
    ({ written := '\\' :: (sign ++ rest.take width), glyph := table.lookup name },
      width + (sign.length + 1))
  begins : ∀ text answer, find text = some answer → '\\' :: sign <+: text
  spelled : ∀ rest name width, read rest = some (name, width) →
    ∃ spelled, ShortSpells spelled name ∧ spelled <+: rest ∧ width = spelled.length
  reads : ∀ entry ∈ table, ∀ spelled ∈ spellings entry.1, ∀ rest,
    read (spelled ++ rest) = some (entry.1, spelled.length)
  known : ∀ entry ∈ table, table.lookup entry.1 = some entry.2

section Names

variable {sign : Text} {read : Finder Text} {table : List (Text × Text)}
  {find : Finder NamedEscape} {escape : NamedEscape}

/-- An escape is its sign and a name as it is written. -/
theorem Names.written (names : Names sign read table find)
    (found : find text = some (escape, width)) : ∃ name spelled rest, ShortSpells spelled name ∧
      text = '\\' :: (sign ++ spelled) ++ rest ∧ width = (sign ++ spelled).length + 1 ∧
      escape = { written := '\\' :: (sign ++ spelled), glyph := table.lookup name } := by
  obtain ⟨behind, rfl⟩ := names.begins _ _ found
  rw [List.cons_append, names.find_eq] at found
  obtain ⟨⟨name, n⟩, read_, eq⟩ := Option.map_eq_some_iff.mp found
  cases eq
  obtain ⟨spelled, spells, ⟨rest, rfl⟩, rfl⟩ := names.spelled _ _ _ read_
  refine ⟨name, spelled, rest, spells, ?_, ?_, ?_⟩
  · rw [List.cons_append, List.cons_append, List.append_assoc]
  · rw [List.length_append]
    omega
  · rw [List.take_left]

theorem mem_formsOf {entry : Text × Text} : entry ∈ formsOf sign table ↔
    ∃ name spelled, (name, entry.2) ∈ table ∧ spelled ∈ spellings name ∧
      entry.1 = '\\' :: (sign ++ spelled) := by
  constructor
  · intro mem
    obtain ⟨⟨name, glyph⟩, known, mem⟩ := List.mem_flatMap.mp mem
    obtain ⟨spelled, spelled_, rfl⟩ := List.mem_map.mp mem
    exact ⟨name, spelled, known, spelled_, rfl⟩
  · rintro ⟨name, spelled, known, spelled_, eq⟩
    refine List.mem_flatMap.mpr ⟨_, known, List.mem_map.mpr ⟨spelled, spelled_, ?_⟩⟩
    rw [← eq]

theorem Names.glyphs_eq_some_iff (names : Names sign read table find) :
    glyphs find text = some (glyph, width) ↔
      ∃ form, (form, glyph) ∈ formsOf sign table ∧ form <+: text ∧ width = form.length := by
  constructor
  · intro found
    obtain ⟨⟨escape, width'⟩, answer, eq⟩ := Option.bind_eq_some_iff.mp found
    obtain ⟨glyph', known, eq⟩ := Option.map_eq_some_iff.mp eq
    cases eq
    obtain ⟨name, spelled, rest, spells, rfl, rfl, rfl⟩ := names.written answer
    obtain ⟨before, after, eq, -⟩ := List.lookup_eq_some_iff.mp known
    have entry : (name, glyph) ∈ table := by
      rw [eq]
      simp
    exact ⟨_, mem_formsOf.mpr ⟨name, spelled, entry, spells.mem_spellings, rfl⟩,
      List.prefix_append _ rest, rfl⟩
  · rintro ⟨form, mem, ⟨rest, rfl⟩, rfl⟩
    obtain ⟨name, spelled, entry, spelled_, rfl⟩ := mem_formsOf.mp mem
    rw [glyphs, List.cons_append, List.append_assoc, names.find_eq,
      names.reads _ entry _ spelled_]
    simp [names.known _ entry]
    omega

/-- No form of a table begins another, since only one name can be read from a text. -/
theorem Names.distinct (names : Names sign read table find) :
    ∀ a ∈ formsOf sign table, ∀ b ∈ formsOf sign table, a.1 <+: b.1 → a = b := by
  rintro ⟨form, glyph⟩ ha ⟨form', glyph'⟩ hb begins
  obtain ⟨name, spelled, known, spelled_, rfl⟩ := mem_formsOf.mp ha
  obtain ⟨name', spelled', known', spelled'_, rfl⟩ := mem_formsOf.mp hb
  dsimp only at begins known known'
  rw [List.cons_prefix_cons, List.prefix_append_right_inj] at begins
  obtain ⟨-, rest, rfl⟩ := begins
  have short := names.reads _ known _ spelled_ rest
  have long := names.reads _ known' _ spelled'_ []
  rw [List.append_nil, short] at long
  obtain ⟨rfl, width⟩ := Prod.mk.inj (Option.some.inj long)
  obtain rfl : rest = [] := by
    rw [List.length_append] at width
    exact List.eq_nil_of_length_eq_zero (by omega)
  cases (names.known (name, glyph) known).symm.trans (names.known (name, glyph') known')
  rw [List.append_nil]

theorem Names.glyphs_eq (names : Names sign read table find) :
    glyphs find = wordAt (formsOf sign table) := by
  funext text
  refine Option.ext fun ⟨glyph, width⟩ => ?_
  rw [names.glyphs_eq_some_iff]
  constructor
  · rintro ⟨form, mem, ⟨rest, rfl⟩, rfl⟩
    exact wordAt_of_mem rest names.distinct mem
  · exact mem_of_wordAt

/-- An escape without a glyph is answered by itself, and no escape begins inside it. -/
theorem Names.sharpens (names : Names sign read table find) (plain : '\\' ∉ sign) :
    Sharpens (outputs find) (glyphs find) where
  agree c rest answer sharp := by
    obtain ⟨⟨escape, width⟩, found, eq⟩ := Option.bind_eq_some_iff.mp sharp
    obtain ⟨glyph, known, rfl⟩ := Option.map_eq_some_iff.mp eq
    simp [outputs, found, NamedEscape.output, known]
  idle c rest output width answer idle := by
    obtain ⟨⟨escape, n⟩, found, eq⟩ := Option.map_eq_some_iff.mp answer
    cases eq
    have unknown : escape.glyph = none := by simpa [glyphs, found] using idle
    obtain ⟨name, spelled, behind, spells, eq, rfl, rfl⟩ := names.written found
    obtain ⟨rfl, rfl⟩ := List.cons.inj (eq.trans List.cons_append)
    refine ⟨?_, Nat.succ_pos _, fun d mem s => ?_⟩
    · rw [List.take_succ_cons, List.take_left, NamedEscape.output, unknown]
      rfl
    · rw [Nat.add_sub_cancel, List.take_left, List.mem_append] at mem
      refine Option.bind_eq_none_iff.mpr fun answer found => ?_
      obtain rfl := (List.cons_prefix_cons.mp (names.begins _ _ found)).1
      exact absurd mem (not_or.mpr ⟨plain, spells.plain⟩)

end Names

theorem isName_specialCharacters : ∀ entry ∈ specialCharacters,
    entry.1.length = 2 ∧ entry.1.all isNameChar ∧ avoids "([".toList entry.1 ∧
      specialCharacters.lookup entry.1 = some entry.2 := by
  decide +kernel

theorem isName_namedStrings : ∀ entry ∈ namedStrings,
    (entry.1.length = 1 ∨ entry.1.length = 2) ∧ entry.1.all isNameChar ∧
      avoids "([".toList entry.1 ∧ namedStrings.lookup entry.1 = some entry.2 := by
  decide +kernel

theorem names_specialCharacterAt : Names [] name? specialCharacters specialCharacterAt where
  find_eq rest := by simp [specialCharacterAt]
  begins text answer found := by
    unfold specialCharacterAt at found
    split at found
    · exact ⟨_, rfl⟩
    · cases found
  spelled rest name width read := by
    obtain ⟨spelled, spells, later⟩ := name?_eq_some_iff.mp read
    exact ⟨spelled, .name spells, later⟩
  reads entry mem spelled spelled_ rest := by
    obtain ⟨name, glyph⟩ := entry
    obtain ⟨length, chars, first, -⟩ := isName_specialCharacters _ mem
    have spells := IsName.shortSpells ⟨.inr length, List.all_eq_true.mp chars, first⟩ spelled_
    refine name?_eq_some_iff.mpr ⟨spelled, ?_, List.prefix_append spelled rest, rfl⟩
    cases spells with
    | letter => cases length
    | name spells => exact spells
  known entry mem := (isName_specialCharacters entry mem).2.2.2

theorem names_namedStringAt : Names ['*'] shortName? namedStrings namedStringAt where
  find_eq rest := by simp [namedStringAt]
  begins text answer found := by
    unfold namedStringAt at found
    split at found
    · exact ⟨_, rfl⟩
    · cases found
  spelled rest name width read := shortName?_eq_some_iff.mp read
  reads entry mem spelled spelled_ rest := by
    obtain ⟨length, chars, first, -⟩ := isName_namedStrings entry mem
    have spells := IsName.shortSpells ⟨length, List.all_eq_true.mp chars, first⟩ spelled_
    exact shortName?_eq_some_iff.mpr ⟨spelled, spells, List.prefix_append spelled rest, rfl⟩
  known entry mem := (isName_namedStrings entry mem).2.2.2

def brackets : List (Text × Text) :=
  [("<".toList, "&lt;".toList), (">".toList, "&gt;".toList)]

/-- The texts that the last steps replace, with what the output holds for them. -/
def forms : List (Text × Text) :=
  formsOf [] specialCharacters ++ formsOf ['*'] namedStrings ++ brackets

theorem inTurn_names : InTurn (formsOf [] specialCharacters) (formsOf ['*'] namedStrings) where
  positive := by decide +kernel
  distinct := names_namedStringAt.distinct
  apart := by decide +kernel
  inside := by decide +kernel
  ahead := by decide +kernel
  within := by decide +kernel

theorem inTurn_brackets :
    InTurn (formsOf [] specialCharacters ++ formsOf ['*'] namedStrings) brackets := by
  constructor <;> decide +kernel

/-- No form begins another. -/
theorem forms_distinct : ∀ a ∈ forms, ∀ b ∈ forms, a.1 <+: b.1 → a = b :=
  inTurn_brackets.distinct_append (inTurn_names.distinct_append names_specialCharacterAt.distinct)

theorem angleBracketAt_eq : angleBracketAt = wordAt brackets := by
  funext text
  cases text with
  | nil => rfl
  | cons c rest =>
    by_cases opening : c = '<'
    · subst opening
      rfl
    · by_cases closing : c = '>'
      · subst closing
        rfl
      · simp [angleBracketAt, wordAt, brackets, opening, closing, Ne.symm]

/-- The steps behind the preparation of a text replace its forms, all at once. -/
theorem escape_eq (text : Text) : escape text = substitute (wordAt forms) (prepare text) := by
  rw [escape, replaceNamedStrings, replaceSpecialCharacters,
    (names_specialCharacterAt.sharpens (by decide)).substitute_eq,
    (names_namedStringAt.sharpens (by decide)).substitute_eq, names_specialCharacterAt.glyphs_eq,
    names_namedStringAt.glyphs_eq, angleBracketAt_eq, inTurn_names.substitute_eq,
    inTurn_brackets.substitute_eq]
  rfl

end ManPage.Inline
