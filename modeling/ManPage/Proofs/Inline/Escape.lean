import ManPage.Inline.Escape
import ManPage.Proofs.Markup.Escaped
import ManPage.Proofs.Text.Scan

/-! An escaped text holds no markup. The step that escapes ampersands makes each of them begin an
entity, each later step keeps that, and the last step takes the angle brackets away. -/

namespace ManPage.Inline

open Text Markup

/-- A finder that answers nothing inside an entity, and whose answers for a stretch of text are
either that stretch or texts in which each ampersand begins an entity. -/
structure KeepsEntities (find : Finder Text) : Prop where
  inside : ∀ c rest, isEntityChar c → find (c :: rest) = none
  answer : ∀ c rest found width, find (c :: rest) = some (found, width) →
    0 < width ∧ (found = (c :: rest).take width ∨ Guarded found)

/-- What an entity holds behind its ampersand is not substituted. -/
theorem prefix_substitute {find : Finder Text}
    (inside : ∀ c rest, isEntityChar c → find (c :: rest) = none) {body text : Text}
    (chars : ∀ c ∈ body, isEntityChar c) (start : body <+: text) :
    body <+: substitute find text := by
  obtain ⟨rest, rfl⟩ := start
  rw [substitute_append fun c s suffix => inside c _ (chars c (suffix.subset (by simp)))]
  exact List.prefix_append _ _

theorem KeepsEntities.guarded {find : Finder Text} (keeps : KeepsEntities find) (text : Text) :
    Guarded text → Guarded (substitute find text) := by
  induction text using scan_induction find with
  | nil => exact id
  | skip c rest h ih =>
    intro guarded
    rw [substitute_of_none h]
    exact Guarded.exchange (a := [c]) guarded (ih guarded.tail)
      fun body chars start => prefix_substitute keeps.inside chars start
  | hit c rest found width h ih =>
    intro guarded
    rw [substitute_of_some h]
    have tail := ih (guarded.tail.drop _)
    obtain ⟨positive, same | replaced⟩ := keeps.answer c rest found width h
    · -- An entity may begin in the stretch that stays and end behind it.
      have split : found ++ rest.drop (width - 1) = c :: rest := by
        obtain ⟨n, rfl⟩ : ∃ n, width = n + 1 := ⟨width - 1, by omega⟩
        rw [same, Nat.add_sub_cancel, List.take_succ_cons, List.cons_append, List.take_append_drop]
      rw [← split] at guarded
      exact guarded.exchange tail fun body chars start => prefix_substitute keeps.inside chars start
    · exact replaced.append tail

theorem simpleEscapeAt_of_ne {c : Char} {rest : Text} (h : c ≠ '\\') :
    simpleEscapeAt (c :: rest) = none := by
  unfold simpleEscapeAt
  split
  · simp_all
  · rfl

/-! ### Ampersands -/

theorem ampersandAt_of_ne {c : Char} {rest : Text} (h : c ≠ '&') :
    ampersandAt (c :: rest) = none := by
  unfold ampersandAt
  split
  · simp_all
  · rfl

theorem ampersandAt_amp (rest : Text) :
    ampersandAt ('&' :: rest) =
      if ∃ entity ∈ ownEntities, entity <+: '&' :: rest then none
      else some ("&amp;".toList, 1) := by
  simp only [ampersandAt, List.any_eq_true, List.isPrefixOf_iff_prefix]

theorem ampersandAt_eq_some {text found : Text} {width : Nat}
    (answer : ampersandAt text = some (found, width)) : found = "&amp;".toList ∧ width = 1 := by
  unfold ampersandAt at answer
  split at answer
  · obtain ⟨-, eq⟩ := Option.ite_none_left_eq_some.mp answer
    cases eq
    exact ⟨rfl, rfl⟩
  · cases answer

theorem backslash_not_mem_of_ampersandAt {text found : Text} {width : Nat}
    (answer : ampersandAt text = some (found, width)) : '\\' ∉ found := by
  obtain ⟨rfl, -⟩ := ampersandAt_eq_some answer
  decide

/-- Escaping ampersands makes each of them begin an entity. -/
theorem guarded_ampersands (text : Text) : Guarded (substitute ampersandAt text) := by
  have inside : ∀ c rest, isEntityChar c → ampersandAt (c :: rest) = none := fun c rest hc =>
    ampersandAt_of_ne (ne_of_isEntityChar hc (by decide))
  induction text using scan_induction ampersandAt with
  | nil => trivial
  | skip c rest h ih =>
    rw [substitute_of_none h]
    refine ⟨?_, ih⟩
    rintro rfl
    obtain ⟨entity, own, start⟩ : ∃ entity ∈ ownEntities, entity <+: '&' :: rest := by
      simpa [ampersandAt_amp] using h
    obtain ⟨body, rfl, chars⟩ := ownEntities_eq_cons own
    refine ⟨_, own, List.cons_prefix_cons.mpr ⟨rfl, ?_⟩⟩
    exact prefix_substitute inside chars (List.cons_prefix_cons.mp start).2
  | hit c rest found width h ih =>
    rw [substitute_of_some h]
    have own : found ∈ ownEntities := mem_ownEntities (by simp [(ampersandAt_eq_some h).1])
    exact (guarded_entity own).append ih

/-! ### Names -/

theorem glyph_guarded : ∀ entry ∈ specialCharacters ++ namedStrings,
    entry.2 ∈ ownEntities ∨ '&' ∉ entry.2 := by
  decide

theorem guarded_of_lookup {table : List (Text × Text)}
    (known : table ⊆ specialCharacters ++ namedStrings) {name glyph : Text}
    (h : table.lookup name = some glyph) : Guarded glyph := by
  obtain ⟨before, after, rfl, -⟩ := List.lookup_eq_some_iff.mp h
  rcases glyph_guarded (name, glyph) (known (by simp)) with own | plain
  · exact guarded_entity own
  · exact guarded_of_not_mem plain

/-- A finder of escapes of a table: an escape begins with a backslash, stands as it is written, and
names what the table has for its name. -/
structure FindsNames (table : List (Text × Text)) (find : Finder NamedEscape) : Prop where
  begins : ∀ c rest, c ≠ '\\' → find (c :: rest) = none
  names : ∀ text escape width, find text = some (escape, width) →
    0 < width ∧ escape.written = text.take width ∧ ∃ name, escape.glyph = table.lookup name

theorem findsNames_specialCharacterAt : FindsNames specialCharacters specialCharacterAt where
  begins c rest hc := by
    unfold specialCharacterAt
    split
    · simp_all
    · rfl
  names text escape width h := by
    unfold specialCharacterAt at h
    split at h
    · simp only [Option.map_eq_some_iff, Prod.mk.injEq, Prod.exists] at h
      obtain ⟨name, n, -, rfl, rfl⟩ := h
      exact ⟨by omega, rfl, name, rfl⟩
    · simp at h

theorem findsNames_namedStringAt : FindsNames namedStrings namedStringAt where
  begins c rest hc := by
    unfold namedStringAt
    split
    · simp_all
    · rfl
  names text escape width h := by
    unfold namedStringAt at h
    split at h
    · simp only [Option.map_eq_some_iff, Prod.mk.injEq, Prod.exists] at h
      obtain ⟨name, n, -, rfl, rfl⟩ := h
      exact ⟨by omega, rfl, name, rfl⟩
    · simp at h

theorem FindsNames.keepsEntities {table : List (Text × Text)} {find : Finder NamedEscape}
    (finds : FindsNames table find) (known : table ⊆ specialCharacters ++ namedStrings) :
    KeepsEntities (outputs find) where
  inside c rest hc := by
    have other : c ≠ '\\' := ne_of_isEntityChar hc (by decide)
    rw [outputs, finds.begins c rest other, Option.map_none]
  answer c rest found width h := by
    obtain ⟨⟨escape, n⟩, answered, eq⟩ := Option.map_eq_some_iff.mp h
    obtain ⟨rfl, rfl⟩ := Prod.mk.inj eq
    obtain ⟨positive, written, name, looked⟩ := finds.names _ _ _ answered
    refine ⟨positive, ?_⟩
    unfold NamedEscape.output
    cases glyph : escape.glyph with
    | none => exact .inl written
    | some html => exact .inr (guarded_of_lookup known (looked ▸ glyph))

/-! ### Angle brackets -/

theorem keepsEntities_angleBracketAt : KeepsEntities angleBracketAt where
  inside c rest hc := by
    have opening : c ≠ '<' := ne_of_isEntityChar hc (by decide)
    have closing : c ≠ '>' := ne_of_isEntityChar hc (by decide)
    simp [angleBracketAt, opening, closing]
  answer c rest found width h := by
    unfold angleBracketAt at h
    split at h
    · simp only [Option.some.injEq, Prod.mk.injEq] at h
      obtain ⟨rfl, rfl⟩ := h
      exact ⟨by omega, .inr (guarded_entity (mem_ownEntities (by simp)))⟩
    · simp only [Option.some.injEq, Prod.mk.injEq] at h
      obtain ⟨rfl, rfl⟩ := h
      exact ⟨by omega, .inr (guarded_entity (mem_ownEntities (by simp)))⟩
    · simp at h

theorem not_mem_angleBrackets (text : Text) :
    '<' ∉ substitute angleBracketAt text ∧ '>' ∉ substitute angleBracketAt text := by
  induction text using scan_induction angleBracketAt with
  | nil => simp
  | skip c rest h ih =>
    have opening : c ≠ '<' := by rintro rfl; simp [angleBracketAt] at h
    have closing : c ≠ '>' := by rintro rfl; simp [angleBracketAt] at h
    rw [substitute_of_none h]
    simp [ih, opening.symm, closing.symm]
  | hit c rest found width h ih =>
    rw [substitute_of_some h]
    unfold angleBracketAt at h
    split at h
    · obtain ⟨rfl, -⟩ := by simpa using h
      simp [ih]
    · obtain ⟨rfl, -⟩ := by simpa using h
      simp [ih]
    · simp at h

/-- An escaped text holds no markup. -/
theorem escaped_escape (text : Text) : Escaped (escape text) := by
  have prepared : Guarded (prepare text) := by
    unfold prepare
    exact guarded_ampersands _
  have named : Guarded (replaceNamedStrings (replaceSpecialCharacters (prepare text))) := by
    unfold replaceNamedStrings replaceSpecialCharacters
    have characters := findsNames_specialCharacterAt.keepsEntities (List.subset_append_left _ _)
    have strings := findsNames_namedStringAt.keepsEntities (List.subset_append_right _ _)
    exact strings.guarded _ (characters.guarded _ prepared)
  have angles :=
    not_mem_angleBrackets (replaceNamedStrings (replaceSpecialCharacters (prepare text)))
  unfold escape
  refine ⟨?_, angles.1, angles.2⟩
  apply keepsEntities_angleBracketAt.guarded
  exact named

end ManPage.Inline
