import ManPage.Proofs.Anchor
import ManPage.Proofs.Inline.Link
import ManPage.Proofs.Text.Substitution

/-! Text recovered from its HTML. Links and fonts add tags and nothing else, so a line without its
tags is its escaped text. In a text without escapes and entities, escaping writes each markup
character as its entity, from which the characters are read back. -/

namespace ManPage.Inline

open Text Markup

variable {text html : Text}

/-! ### Tags -/

theorem stripTags_anchor {address : Text} (chars : ∀ c ∈ address, isAddressChar c) (html : Text) :
    stripTags (anchor address ++ html) = address ++ stripTags html := by
  have start := IsTag.link (isAttributeValue_of_isAddressChar chars)
  have stop := IsTag.closing Element.a
  rw [anchor_eq chars, List.append_assoc, List.append_assoc, start.stripTags_append]
  refine (stripTagsFrom_append (not_mem_of_isAddressChar chars) _).trans ?_
  exact congrArg (address ++ ·) (stop.stripTags_append html)

theorem Linked.stripTags {items : List Text} (h : Linked items html)
    (fits : ∀ item ∈ items, IsItem item) : stripTags html = stripTags items.flatten := by
  induction h with
  | nil => rfl
  | @keep item items html rest ih =>
    have head := fits item List.mem_cons_self
    rw [head.stripTags_append, ih fun item mem => fits item (List.mem_cons_of_mem _ mem),
      List.flatten_cons, head.stripTags_append]
  | @link address chars items html rest ih =>
    rw [stripTags_anchor chars, ih fun item mem => fits item (List.mem_append_right _ mem),
      flatten_chars]
    exact (stripTagsFrom_append (not_mem_of_isAddressChar chars) _).symm

/-- Links add tags and nothing else. -/
theorem stripTags_renderLine (text : Text) :
    stripTags (renderLine text) = stripTags (render text) := by
  obtain ⟨items, eq, fits⟩ := (neutral_render text []).isHtml
  have fonts : tags items.flatten ⊆ Font.tags := eq ▸ tags_expandFonts_subset (escaped_escape text)
  rw [renderLine, eq]
  exact (linked_link fits fonts).stripTags fits

/-! ### Fonts -/

theorem expandFonts_eq_self (plain : '\\' ∉ html) : expandFonts html = html := by
  have ignored : ∀ c s, c :: s <:+ html → fontAt (c :: s ++ []) = none := fun c s suffix =>
    fontAt_of_ne fun eq => plain (eq ▸ suffix.subset List.mem_cons_self)
  have kept := scan_append ignored
  rw [List.append_nil] at kept
  rw [expandFonts, kept, runs_append_inl]
  simp

/-! ### Entities of the markup characters -/

/-- The entities of the markup characters, with the characters. -/
def markupEntities : List (Text × Text) :=
  [("&lt;", "<"), ("&gt;", ">"), ("&amp;", "&")].map fun (entity, c) => (entity.toList, c.toList)

/-- A text with the markup characters for their entities. -/
def unescape (html : Text) : Text :=
  substitute (wordAt markupEntities) html

/-- A character as it is written in text without markup. -/
def written (c : Char) : Text :=
  if c = '<' then "&lt;".toList
  else if c = '>' then "&gt;".toList
  else if c = '&' then "&amp;".toList
  else [c]

theorem markupEntities_start : ∀ entry ∈ markupEntities, entry.1.head? = some '&' := by
  decide

theorem unescape_cons {c : Char} (other : c ≠ '&') (html : Text) :
    unescape (c :: html) = c :: unescape html := by
  refine substitute_of_none (wordAt_eq_none_iff.mpr fun entry mem begins => ?_)
  obtain ⟨word, eq⟩ := List.head?_eq_some_iff.mp (markupEntities_start entry mem)
  exact other (List.cons_prefix_cons.mp (eq ▸ begins)).1.symm

theorem written_cases (c : Char) :
    c = '<' ∨ c = '>' ∨ c = '&' ∨ c ≠ '<' ∧ c ≠ '>' ∧ c ≠ '&' ∧ written c = [c] := by
  by_cases opening : c = '<'
  · exact .inl opening
  · by_cases closing : c = '>'
    · exact .inr (.inl closing)
    · by_cases ampersand : c = '&'
      · exact .inr (.inr (.inl ampersand))
      · refine .inr (.inr (.inr ⟨opening, closing, ampersand, ?_⟩))
        rw [written, if_neg opening, if_neg closing, if_neg ampersand]

theorem unescape_written (c : Char) (html : Text) :
    unescape (written c ++ html) = c :: unescape html := by
  rcases written_cases c with rfl | rfl | rfl | ⟨-, -, other, itself⟩
  · rfl
  · rfl
  · rfl
  · rw [itself]
    exact unescape_cons other html

theorem unescape_flatMap_written (text : Text) : unescape (text.flatMap written) = text := by
  induction text with
  | nil => rfl
  | cons c text ih => rw [List.flatMap_cons, unescape_written, ih]

/-! ### Text without escapes and entities -/

theorem FindsNames.substitute_eq_self {table : List (Text × Text)} {find : Finder NamedEscape}
    (finds : FindsNames table find) (plain : '\\' ∉ text) :
    substitute (outputs find) text = text :=
  substitute_eq_self_of_not_mem
    (fun c rest other => by rw [outputs, finds.begins c rest other, Option.map_none]) plain

theorem ampersandAt_of_foreign {rest : Text}
    (foreign : ∀ entity ∈ ownEntities, ¬entity <:+: '&' :: rest) :
    ampersandAt ('&' :: rest) = some ("&amp;".toList, 1) := by
  rw [ampersandAt_amp, if_neg]
  rintro ⟨entity, own, begins⟩
  exact foreign entity own begins.isInfix

theorem angles_ampersands (foreign : ∀ entity ∈ ownEntities, ¬entity <:+: text) :
    substitute angleBracketAt (substitute ampersandAt text) = text.flatMap written := by
  induction text with
  | nil => rfl
  | cons c text ih =>
    have tail := ih fun entity own inside =>
      foreign entity own (inside.trans (List.suffix_cons c text).isInfix)
    rw [List.flatMap_cons, ← tail]
    rcases written_cases c with rfl | rfl | rfl | ⟨opening, closing, other, itself⟩
    · rfl
    · rfl
    · rw [substitute_of_some (ampersandAt_of_foreign foreign)]
      rfl
    · rw [substitute_of_none (ampersandAt_of_ne other), itself]
      exact substitute_of_none (by simp [angleBracketAt, opening, closing])

/-- Where no escape and no entity stands, escaping writes each character as in text without
markup. -/
theorem escape_eq_flatMap_written (plain : '\\' ∉ text)
    (foreign : ∀ entity ∈ ownEntities, ¬entity <:+: text) : escape text = text.flatMap written := by
  have resolved : substitute simpleEscapeAt text = text :=
    substitute_eq_self_of_not_mem (fun _ _ => simpleEscapeAt_of_ne) plain
  have kept : '\\' ∉ substitute ampersandAt text :=
    not_mem_substitute (fun _ _ _ => backslash_not_mem_of_ampersandAt) plain
  rw [escape, prepare, resolved, replaceSpecialCharacters,
    findsNames_specialCharacterAt.substitute_eq_self kept, replaceNamedStrings,
    findsNames_namedStringAt.substitute_eq_self kept, angles_ampersands foreign]

theorem backslash_not_mem_written {c : Char} (other : c ≠ '\\') : '\\' ∉ written c := by
  rcases written_cases c with rfl | rfl | rfl | ⟨-, -, -, itself⟩
  · decide
  · decide
  · decide
  · rw [itself]
    simpa using other.symm

/-- A text without escapes and entities is read back from its HTML. -/
theorem unescape_stripTags_renderLine (plain : '\\' ∉ text)
    (foreign : ∀ entity ∈ ownEntities, ¬entity <:+: text) :
    unescape (stripTags (renderLine text)) = text := by
  have escaped := escape_eq_flatMap_written plain foreign
  have noEscape : '\\' ∉ escape text := by
    rw [escaped, List.mem_flatMap]
    rintro ⟨c, mem, inside⟩
    exact backslash_not_mem_written (fun eq => plain (eq ▸ mem)) inside
  rw [stripTags_renderLine, render, expandFonts_eq_self noEscape,
    stripTags_of_not_mem (escaped_escape text).no_opening, escaped, unescape_flatMap_written]

/-- Entities that are cut short or foreign, and an address between angle brackets. -/
theorem unescape_stripTags_renderLine_address :
    let text := "&l&lt <http://a.org/x.html> &foo;amp; R&D".toList
    '\\' ∉ text ∧ (∀ entity ∈ ownEntities, ¬entity <:+: text) ∧
      unescape (stripTags (renderLine text)) = text := by
  intro text
  have plain : '\\' ∉ text := by decide
  have foreign : ∀ entity ∈ ownEntities, ¬entity <:+: text := by decide +kernel
  exact ⟨plain, foreign, unescape_stripTags_renderLine plain foreign⟩

end ManPage.Inline
