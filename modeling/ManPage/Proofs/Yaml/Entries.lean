import ManPage.Proofs.Yaml.Scalar

/-! Entries between lines of dashes, and how they are read. Whatever its value is, an entry keeps to
its own lines: the first begins with its key, the others are empty or indented, and none of them is
a delimiter. So the reader finds the entries that were written. -/

namespace ManPage.Yaml

open Text

variable {key value line : Text} {c : Char}

/-! ### Keys -/

theorem isKey_iff : isKey key ↔
    key ≠ [] ∧ (∀ c ∈ key, c.isAlpha ∨ c = '_') ∧ resolvesToText key := by
  simp [isKey, and_assoc]

/-- The characters of a key are letters or underscores, and so between `A` and `z`. -/
theorem range_of_isKey (known : isKey key) (inside : c ∈ key) : 65 ≤ c.toNat ∧ c.toNat ≤ 122 := by
  obtain alpha | rfl := (isKey_iff.mp known).2.1 c inside
  · delta Char.isAlpha Char.isUpper Char.isLower at alpha
    simp only [Bool.or_eq_true, Bool.and_eq_true, decide_eq_true_eq, ge_iff_le,
      UInt32.le_iff_toNat_le] at alpha
    change (65 ≤ c.toNat ∧ c.toNat ≤ 90) ∨ 97 ≤ c.toNat ∧ c.toNat ≤ 122 at alpha
    omega
  · decide

theorem isPrintable_of_isKey (known : isKey key) (inside : c ∈ key) : isPrintable c := by
  have range := range_of_isKey known inside
  simp only [isPrintable, Bool.or_eq_true, Bool.and_eq_true, decide_eq_true_eq]
  omega

theorem not_isBreak_of_isKey (known : isKey key) (inside : c ∈ key) : isBreak c = false := by
  have range := range_of_isKey known inside
  have other {d : Char} (outside : d.toNat < 65 ∨ 122 < d.toNat) : (c == d) = false := by
    rw [beq_eq_false_iff_ne]
    rintro rfl
    omega
  rw [isBreak, other (by decide), other (by decide), other (by decide), other (by decide),
    other (by decide)]
  rfl

theorem continues_of_isKey (known : isKey key) (rest : Text) : continues (key ++ rest) = false := by
  obtain ⟨c, key, rfl⟩ := List.exists_cons_of_ne_nil (isKey_iff.mp known).1
  have space : c ≠ ' ' := by
    rintro rfl
    exact absurd (range_of_isKey known List.mem_cons_self) (by decide)
  simp [continues, isSpace, space, not_isBreak_of_isKey known]

/-! ### Lines of an entry -/

theorem not_isDelimiter (other : ∀ c ∈ line.head?, c ≠ '-' ∧ c ≠ '.') :
    isDelimiter line = false := by
  cases line with
  | nil => decide
  | cons c rest =>
    obtain ⟨not_dash, not_dot⟩ := other c rfl
    simp [isDelimiter, after?, not_dash.symm, not_dot.symm]

/-- A block of lines that holds an entry: its key stands at the start of the first line, the others
go on with it, and none is a delimiter. -/
structure HoldsEntry (entry : Text × Text) (block : List Text) : Prop where
  lines : ∃ first more, block = (entry.1 ++ ": ".toList ++ first) :: more ∧
    ∀ line ∈ more, continues line
  inside : ∀ line ∈ block, isDelimiter line = false

theorem HoldsEntry.of_lines {first : Text} {more : List Text} (known : isKey key)
    (go_on : ∀ line ∈ more, continues line) :
    HoldsEntry (key, value) ((key ++ ": ".toList ++ first) :: more) := by
  refine ⟨⟨first, more, rfl, go_on⟩, fun line inside => not_isDelimiter fun c head => ?_⟩
  obtain rfl | inside := List.mem_cons.mp inside
  · obtain ⟨d, key, rfl⟩ := List.exists_cons_of_ne_nil (isKey_iff.mp known).1
    obtain rfl : d = c := by simpa using head
    have range := range_of_isKey known (c := d) (by simp)
    constructor <;>
    · rintro rfl
      exact absurd range (by decide)
  · have blank := go_on line inside
    rw [continues, head] at blank
    constructor <;>
    · rintro rfl
      cases blank

theorem holdsEntry_lines (known : isKey key) (value : Text) :
    HoldsEntry (key, value) (lines (writeEntry key value)) := by
  have written := writeScalar_written value
  have unbroken : ∀ c ∈ key ++ ": ".toList, isBreak c = false := by
    intro c inside
    obtain inside | rfl | rfl : c ∈ key ∨ c = ':' ∨ c = ' ' := by simpa using inside
    · exact not_isBreak_of_isKey known inside
    · decide
    · decide
  obtain ⟨first, more, split, join⟩ := lines_start unbroken written.ne_nil
  have go_on := written.staysIndented.continues
  rw [split] at go_on
  rw [writeEntry, join]
  exact .of_lines known go_on

theorem writeEntry_ends (key value : Text) : ∀ c ∈ (writeEntry key value).getLast?, isBreak c := by
  have written := writeScalar_written value
  rw [writeEntry, List.getLast?_append_of_ne_nil _ written.ne_nil]
  exact written.ends

theorem isPrintable_writeEntry (known : isKey key) (value : Text) :
    ∀ c ∈ writeEntry key value, isPrintable c := by
  intro c inside
  obtain (inside | rfl | rfl) | inside : (c ∈ key ∨ c = ':' ∨ c = ' ') ∨ c ∈ writeScalar value := by
    simpa [writeEntry, or_assoc] using inside
  · exact isPrintable_of_isKey known inside
  · decide
  · decide
  · exact (writeScalar_written value).isPrintable c inside

theorem entryOf?_writeEntry (known : isKey key) (value : Text) :
    entryOf? (writeEntry key value) = some (key, value) := by
  have colon : ':' ∉ key := fun inside => absurd (range_of_isKey known inside) (by decide)
  have cut : cutAt? ':' (writeEntry key value) = some (key, ' ' :: writeScalar value) :=
    cutAt?_eq_some_iff.mpr ⟨by simp [writeEntry], colon⟩
  have space : after? [' '] (' ' :: writeScalar value) = some (writeScalar value) :=
    after?_eq_some_iff.mpr rfl
  rw [entryOf?, cut, Option.bind_some]
  dsimp only
  rw [if_pos known, space, Option.bind_some, (writeScalar_written value).read]
  rfl

/-! ### Entries between delimiters -/

/-- Entries between lines of dashes. -/
def delimited (entries : List (Text × Text)) : Text :=
  "---\n".toList ++ entries.flatMap (fun (key, value) => writeEntry key value) ++ "---".toList

/-- The lines of each entry. -/
def entryLines (entries : List (Text × Text)) : List (List Text) :=
  entries.map fun (key, value) => lines (writeEntry key value)

variable {entries : List (Text × Text)}

theorem lines_delimited (entries : List (Text × Text)) :
    lines (delimited entries) =
      "---\n".toList :: ((entryLines entries).flatten ++ ["---".toList]) := by
  have inside : lines (entries.flatMap (fun (key, value) => writeEntry key value) ++ "---".toList) =
      (entryLines entries).flatten ++ ["---".toList] := by
    induction entries with
    | nil => rfl
    | cons entry entries ih =>
      rw [List.flatMap_cons, List.append_assoc, lines_append (writeEntry_ends _ _), ih]
      simp [entryLines]
  show lines ("---\n".toList ++ _ ++ _) = _
  rw [List.append_assoc, lines_append (by simp [isBreak]), inside]
  rfl

theorem holdsEntry_entryLines (known : ∀ entry ∈ entries, isKey entry.1) :
    List.Forall₂ HoldsEntry entries (entryLines entries) := by
  unfold entryLines
  rw [List.forall₂_map_right_iff, List.forall₂_same]
  exact fun entry inside => holdsEntry_lines (known entry inside) entry.2

theorem isPrintable_delimited (known : ∀ entry ∈ entries, isKey entry.1) :
    (delimited entries).all isPrintable := by
  show ("---\n".toList ++ _ ++ "---".toList).all isPrintable
  rw [List.all_append, List.all_append, Bool.and_eq_true, Bool.and_eq_true]
  refine ⟨⟨by decide, List.all_eq_true.mpr fun c inside => ?_⟩, by decide⟩
  obtain ⟨entry, mem, inside⟩ := List.mem_flatMap.mp inside
  exact isPrintable_writeEntry (known entry mem) entry.2 c inside

theorem not_isDelimiter_entryLines (known : ∀ entry ∈ entries, isKey entry.1) :
    ∀ line ∈ (entryLines entries).flatten, isDelimiter line = false := by
  intro line inside
  obtain ⟨block, held, inside⟩ := List.mem_flatten.mp inside
  obtain ⟨entry, mem, rfl⟩ := List.mem_map.mp held
  exact (holdsEntry_lines (known entry mem) entry.2).inside line inside

/-- The lines of the entries are told apart by where they begin. -/
theorem blocks_entryLines (known : ∀ entry ∈ entries, isKey entry.1) :
    blocks (entryLines entries).flatten = entryLines entries := by
  refine blocks_flatten fun block held => ?_
  obtain ⟨entry, mem, rfl⟩ := List.mem_map.mp held
  obtain ⟨first, more, eq, go_on⟩ := (holdsEntry_lines (known entry mem) entry.2).lines
  rw [List.append_assoc] at eq
  exact ⟨_, more, eq, continues_of_isKey (known entry mem) _, go_on⟩

theorem mapM_entryOf? (known : ∀ entry ∈ entries, isKey entry.1) :
    (entryLines entries).mapM (fun block => entryOf? block.flatten) = some entries := by
  induction entries with
  | nil => rfl
  | cons entry entries ih =>
    have first : entryOf? (lines (writeEntry entry.1 entry.2)).flatten = some entry := by
      rw [flatten_lines, entryOf?_writeEntry (known entry (by simp))]
    have more := ih fun entry inside => known entry (List.mem_cons_of_mem _ inside)
    simp only [entryLines] at more
    simp [entryLines, first, more]

/-- What is written between delimiters is read. -/
theorem readFrontMatter?_delimited (known : ∀ entry ∈ entries, isKey entry.1) :
    readFrontMatter? (delimited entries) = some entries := by
  have body : ((entryLines entries).flatten ++ ["---".toList]).takeWhile (!isDelimiter ·) =
      (entryLines entries).flatten := by
    rw [List.takeWhile_append_of_pos fun line inside => by
      simpa using not_isDelimiter_entryLines known line inside]
    exact List.append_nil _
  unfold readFrontMatter?
  rw [lines_delimited]
  dsimp only
  rw [body, if_pos ⟨isPrintable_delimited known, rfl, List.drop_left⟩, blocks_entryLines known,
    mapM_entryOf? known]

end ManPage.Yaml
