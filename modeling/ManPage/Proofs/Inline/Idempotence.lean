import Mathlib.Tactic.MkIffOfInductiveProp
import ManPage.Proofs.Inline.Form

/-! When escaping an escaped text changes nothing. The preparation leaves behind each backslash a
character whose escape stays as it is written, and what then replaces a form holds no backslash. So
an escaped text changes again only where a backslash has come to stand in front of the entity of an
angle bracket, or in front of the name of a special character whose hyphen was an escape. Each of
these loses its backslash; so counting backslashes shows that the text does change there. -/

namespace ManPage.Inline

open Text Markup

/-! ### Prepared texts -/

theorem simpleEscapeAt_eq_some {c : Char} {s found : Text} {width : Nat}
    (answer : simpleEscapeAt (c :: s) = some (found, width)) :
    ∃ d rest, c = '\\' ∧ s = d :: rest ∧ found = simpleEscape d ∧ width = 2 := by
  unfold simpleEscapeAt at answer
  split at answer
  · rename_i d rest eq
    cases eq
    cases answer
    exact ⟨d, rest, rfl, rfl, rfl, rfl⟩
  · cases answer

/-- A text in which a character behind a backslash has an escape that stays as it is written. -/
def Resolved (text : Text) : Prop :=
  ∀ c rest, '\\' :: c :: rest <:+ text → simpleEscape c = ['\\', c]

variable {text : Text}

theorem Resolved.of_suffix {rest : Text} (resolved : Resolved text) (suffix : rest <:+ text) :
    Resolved rest :=
  fun c s ends => resolved c s (ends.trans suffix)

theorem Resolved.not_backslash {c : Char} {rest : Text} (resolved : Resolved text)
    (ends : '\\' :: c :: rest <:+ text) : c ≠ '\\' := by
  rintro rfl
  exact absurd (resolved _ _ ends) (by decide)

/-- An escape of one character leaves no backslash, or one in front of a character whose escape
stays. -/
theorem simpleEscape_cases (c : Char) : '\\' ∉ simpleEscape c ∨
    ∃ d rest, simpleEscape c = '\\' :: d :: rest ∧ simpleEscape d = ['\\', d] ∧
      '\\' ∉ d :: rest := by
  unfold simpleEscape
  split
  · exact .inl (by decide)
  · split
    · exact .inl (by decide)
    · split
      · exact .inl (by decide)
      · split
        · exact .inr ⟨'(', "hy".toList, rfl, by decide, by decide⟩
        · rename_i other entity space hyphen
          have kept : simpleEscape c = ['\\', c] := by
            rw [simpleEscape, if_neg other, if_neg entity, if_neg space, if_neg hyphen]
          refine .inr ⟨c, [], rfl, kept, ?_⟩
          rw [not_or] at entity
          simpa using Ne.symm entity.2

theorem resolved_simpleEscapes (text : Text) : Resolved (substitute simpleEscapeAt text) := by
  induction text using scan_induction simpleEscapeAt with
  | nil => exact fun c rest ends => absurd (List.suffix_nil.mp ends) (List.cons_ne_nil _ _)
  | skip c rest h ih =>
    rw [substitute_of_none h]
    intro d s ends
    rcases List.suffix_cons_iff.mp ends with eq | inside
    · obtain ⟨rfl, eq⟩ := List.cons.inj eq
      cases rest with
      | nil => cases eq
      | cons e rest => cases h
    · exact ih d s inside
  | hit c rest found width h ih =>
    rw [substitute_of_some h]
    intro d s ends
    obtain ⟨e, rest, rfl, rfl, rfl, rfl⟩ := simpleEscapeAt_eq_some h
    rcases simpleEscape_cases e with plain | ⟨a, more, eq, resolved, plain⟩
    · exact ih d s (suffix_of_suffix_append plain ends)
    · rw [eq, List.cons_append, List.suffix_cons_iff] at ends
      rcases ends with eq | inside
      · rw [List.cons_append, List.cons.injEq, List.cons.injEq] at eq
        exact eq.2.1 ▸ resolved
      · exact ih d s (suffix_of_suffix_append plain inside)

theorem resolved_ampersands (resolved : Resolved text) :
    Resolved (substitute ampersandAt text) := by
  intro c s ends
  obtain ⟨rest, ends, -, eq⟩ :=
    suffix_of_suffix_substitute (fun _ _ _ => backslash_not_mem_of_ampersandAt) ends
  cases rest with
  | nil => cases eq
  | cons d rest =>
    by_cases amp : d = '&'
    · subst amp
      exact absurd (resolved _ _ ends) (by decide)
    · rw [substitute_of_none (ampersandAt_of_ne amp)] at eq
      obtain ⟨rfl, -⟩ := List.cons.inj eq
      exact resolved _ _ ends

theorem resolved_prepare (text : Text) : Resolved (prepare text) :=
  resolved_ampersands (resolved_simpleEscapes text)

theorem simpleEscapes_eq_self (resolved : Resolved text) :
    substitute simpleEscapeAt text = text := by
  induction text using scan_induction simpleEscapeAt with
  | nil => rfl
  | skip c rest h ih =>
    rw [substitute_of_none h, ih (resolved.of_suffix (List.suffix_cons c rest))]
  | hit c rest found width h ih =>
    rw [substitute_of_some h]
    obtain ⟨d, rest, rfl, rfl, rfl, rfl⟩ := simpleEscapeAt_eq_some h
    have left : rest <:+ '\\' :: d :: rest := ⟨['\\', d], rfl⟩
    rw [resolved d rest (List.suffix_refl _)]
    exact congrArg ('\\' :: d :: ·) (ih (resolved.of_suffix left))

theorem ampersands_eq_self (guarded : Guarded text) : substitute ampersandAt text = text := by
  refine substitute_eq_self fun c s suffix => ?_
  by_cases amp : c = '&'
  · subst amp
    rw [ampersandAt_amp, if_pos ((guarded.of_suffix suffix).1 rfl)]
  · exact ampersandAt_of_ne amp

/-- A text with nothing to prepare is left as it is. -/
theorem prepare_eq_self (resolved : Resolved text) (escaped : Escaped text) :
    prepare text = text := by
  rw [prepare, simpleEscapes_eq_self resolved, ampersands_eq_self escaped.guarded]

/-! ### The forms and what replaces them -/

/-- The characters that begin what replaces a form. -/
def starts : Text :=
  "&-~^\x60/_|".toList

def hyphens : List Text :=
  ["\\(hy".toList, "\\[hy]".toList]

/-- The texts of a prepared text in which a backslash comes to stand in front of a new escape: one
of an ampersand, or one of the special character whose name holds a hyphen. -/
def reviving : List Text :=
  ["\\<", "\\>", "\\(+\\(hy", "\\(+\\[hy]", "\\[+\\(hy]", "\\[+\\[hy]]"].map String.toList

/-- What stands in front of the hyphen and behind it in the special character whose name holds a
hyphen and no bracket. -/
def hyphenated : List (Text × Text) :=
  [("(+".toList, []), ("[+".toList, "]".toList)]

/-- What the replacement of forms rests on: a form is a bracket or begins with its only backslash,
and what replaces it holds none; and, but for the special character whose name holds a hyphen, a
form holds a bracket or no character that begins what replaces a form. -/
@[mk_iff] structure IsForm (entry : Text × Text) : Prop where
  positive : entry.1 ≠ []
  inside : '\\' ∉ entry.1.tail
  begins : entry.1.head? = some '\\' ∨ entry ∈ brackets
  kind : '<' ∈ entry.1 ∨ '>' ∈ entry.1 ∨ avoids starts entry.1 ∨
    ∃ sides ∈ hyphenated, entry.1 = '\\' :: sides.1 ++ '-' :: sides.2
  plain : '\\' ∉ entry.2
  start : entry.2.head?.any starts.contains
  hyphen : entry.2.head? = some '-' → entry.1 ∈ hyphens ∧ entry.2 = ['-']

theorem isForm_of_mem : ∀ entry ∈ forms, IsForm entry := by
  simp only [isForm_iff]
  decide +kernel

theorem reviving_start : ∀ s ∈ reviving, s.head? = some '\\' := by
  decide

theorem brackets_reviving : ∀ entry ∈ brackets, (entry.1 = ['<'] ∨ entry.1 = ['>']) ∧
    '\\' :: entry.1 ∈ reviving ∧ entry.2.head? = some '&' := by
  decide

theorem hyphenated_reviving : ∀ sides ∈ hyphenated, avoids starts sides.1 ∧ avoids starts sides.2 ∧
    ∀ hyphen ∈ hyphens, '\\' :: sides.1 ++ (hyphen ++ sides.2) ∈ reviving := by
  decide +kernel

section Forms

variable {s found : Text} {width : Nat} (answer : wordAt forms s = some (found, width))

include answer

theorem not_mem_of_forms : '\\' ∉ found := by
  obtain ⟨word, mem, -⟩ := mem_of_wordAt answer
  exact (isForm_of_mem _ mem).plain

theorem foreign_forms {word : Text} (outside : avoids starts word) :
    ∃ c rest, found = c :: rest ∧ c ∉ word := by
  obtain ⟨_, mem, -⟩ := mem_of_wordAt answer
  obtain ⟨c, head, start⟩ := (Option.any_eq_true _ _).mp (isForm_of_mem _ mem).start
  obtain ⟨rest, rfl⟩ := List.head?_eq_some_iff.mp head
  exact ⟨c, rest, rfl, avoids_iff.mp outside c (by simpa using start)⟩

end Forms

/-- A hyphen of an escaped text comes from a hyphen or from a form of one. -/
theorem hyphen_of_start {later : Text} (begins : '-' :: later <+: substitute (wordAt forms) text) :
    ∃ hyphen ∈ ['-'] :: hyphens, ∃ rest, text = hyphen ++ rest ∧
      later <+: substitute (wordAt forms) rest := by
  cases text with
  | nil => exact absurd (List.prefix_nil.mp begins) (List.cons_ne_nil _ _)
  | cons c rest =>
    cases h : wordAt forms (c :: rest) with
    | none =>
      rw [substitute_of_none h, List.cons_prefix_cons] at begins
      obtain ⟨rfl, begins⟩ := begins
      exact ⟨['-'], List.mem_cons_self, rest, rfl, begins⟩
    | some answer =>
      obtain ⟨found, width⟩ := answer
      obtain ⟨word, mem, ⟨behind, split⟩, -⟩ := mem_of_wordAt h
      have positive := (isForm_of_mem _ mem).positive
      rw [← split, substitute_word behind forms_distinct mem positive] at begins
      obtain ⟨d, found', rfl, -⟩ := foreign_forms h (avoids_iff.mpr fun _ _ => List.not_mem_nil)
      obtain ⟨rfl, -⟩ := List.cons_prefix_cons.mp begins
      obtain ⟨hyphen, same⟩ := (isForm_of_mem _ mem).hyphen rfl
      obtain ⟨-, rfl⟩ := List.cons.inj same
      exact ⟨word, List.mem_cons_of_mem _ hyphen, behind, split.symm,
        (List.cons_prefix_cons.mp begins).2⟩

/-! ### Texts that are escaped once -/

theorem infix_of_append_suffix {front whole : Text} (back : Text) (ends : front ++ back <:+ whole) :
    front <:+: whole :=
  (List.prefix_append front back).isInfix.trans ends.isInfix

/-- A backslash of an escaped text is one of the prepared text that begins no form. -/
theorem backslash_of_suffix {rest : Text} (ends : '\\' :: rest <:+ escape text) :
    ∃ before, '\\' :: before <:+ prepare text ∧ wordAt forms ('\\' :: before) = none ∧
      rest = substitute (wordAt forms) before := by
  rw [escape_eq] at ends
  exact suffix_of_suffix_substitute (fun s found width answer => not_mem_of_forms answer) ends

/-- In an escaped text a backslash stands in front of a character whose escape stays, or in front of
the entity of an angle bracket. -/
theorem resolved_or_bracket {c : Char} {rest : Text} (ends : '\\' :: c :: rest <:+ escape text) :
    simpleEscape c = ['\\', c] ∨ c = '&' ∧ ∃ s ∈ reviving, s <:+: prepare text := by
  obtain ⟨before, ends, -, eq⟩ := backslash_of_suffix ends
  have resolved := resolved_prepare text
  cases before with
  | nil => cases eq
  | cons d before =>
    cases h : wordAt forms (d :: before) with
    | none =>
      rw [substitute_of_none h] at eq
      obtain ⟨rfl, -⟩ := List.cons.inj eq
      exact .inl (resolved _ _ ends)
    | some answer =>
      obtain ⟨word, mem, ⟨behind, split⟩, -⟩ := mem_of_wordAt h
      obtain ⟨e, word, rfl⟩ := List.exists_cons_of_ne_nil (isForm_of_mem _ mem).positive
      rw [List.cons_append, List.cons.injEq] at split
      obtain ⟨rfl, rfl⟩ := split
      rcases (isForm_of_mem _ mem).begins with backslash | bracket
      · cases backslash
        exact absurd rfl (resolved.not_backslash ends)
      · obtain ⟨-, reviving, amp⟩ := brackets_reviving _ bracket
        obtain ⟨more, meaning⟩ := List.head?_eq_some_iff.mp amp
        dsimp only at meaning
        rw [substitute_of_some h, meaning, List.cons_append, List.cons.injEq] at eq
        exact .inr ⟨eq.1, _, reviving, infix_of_append_suffix behind ends⟩

/-- A form in an escaped text is that of a special character whose name has got its hyphen. -/
theorem hyphenated_of_form {word meaning rest : Text} (mem : (word, meaning) ∈ forms)
    (ends : '\\' :: rest <:+ escape text) (begins : word <+: '\\' :: rest) :
    ∃ s ∈ reviving, s <:+: prepare text := by
  obtain ⟨before, suffix, silent, rfl⟩ := backslash_of_suffix ends
  have escaped := escaped_escape text
  have inside : ∀ c ∈ word, c ∈ escape text := fun c h => ends.subset (begins.subset h)
  obtain ⟨d, key, rfl⟩ := List.exists_cons_of_ne_nil (isForm_of_mem _ mem).positive
  obtain ⟨rfl, start⟩ := List.cons_prefix_cons.mp begins
  -- A form that begins the text before the substitution would have been found there.
  have absent : ¬key <+: before := fun start =>
    wordAt_eq_none_iff.mp silent _ mem (List.cons_prefix_cons.mpr ⟨rfl, start⟩)
  rcases (isForm_of_mem _ mem).kind with opening | closing | outside | ⟨sides, hyphenated, eq⟩
  · exact absurd (inside _ opening) escaped.no_opening
  · exact absurd (inside _ closing) escaped.no_closing
  · have behind : avoids starts key := avoids_iff.mpr fun c first within =>
      avoids_iff.mp outside c first (List.mem_cons_of_mem _ within)
    refine (absent (prefix_of_prefix_substitute (fun _ _ _ answer => ?_) start)).elim
    exact foreign_forms answer behind
  · obtain ⟨front, back, revives⟩ := hyphenated_reviving _ hyphenated
    rw [List.cons_append, List.cons.injEq] at eq
    obtain ⟨-, rfl⟩ := eq
    obtain ⟨second, rfl, next⟩ :=
      split_of_prefix_substitute (fun _ _ _ answer => foreign_forms answer front) start
    obtain ⟨hyphen, kind, third, rfl, last⟩ := hyphen_of_start next
    obtain ⟨behind, rfl⟩ :=
      prefix_of_prefix_substitute (fun _ _ _ answer => foreign_forms answer back) last
    rcases List.mem_cons.mp kind with rfl | form
    · exact absurd ⟨behind, by simp⟩ absent
    · refine ⟨_, revives hyphen form, infix_of_append_suffix behind ?_⟩
      simpa using suffix

theorem escape_eq_self (quiet : ∀ s ∈ reviving, ¬s <:+: prepare text) :
    escape (escape text) = escape text := by
  have silent : ¬∃ s ∈ reviving, s <:+: prepare text := fun ⟨s, mem, stands⟩ => quiet s mem stands
  have escaped := escaped_escape text
  have resolved : Resolved (escape text) := fun c rest ends =>
    (resolved_or_bracket ends).resolve_right fun bracket => silent bracket.2
  refine (escape_eq (escape text)).trans ?_
  rw [prepare_eq_self resolved escaped]
  refine substitute_eq_self fun c s ends => wordAt_eq_none_iff.mpr fun ⟨word, _⟩ mem begins => ?_
  obtain ⟨d, key, eq⟩ := List.exists_cons_of_ne_nil (isForm_of_mem _ mem).positive
  have head : d = c := (List.cons_prefix_cons.mp (eq ▸ begins)).1
  have inside : c ∈ escape text := ends.subset List.mem_cons_self
  rcases (isForm_of_mem _ mem).begins with backslash | bracket
  · rw [eq, head] at backslash
    cases backslash
    exact silent (hyphenated_of_form mem ends begins)
  · rcases (brackets_reviving _ bracket).1 with rfl | rfl
    · cases eq
      exact escaped.no_opening (head ▸ inside)
    · cases eq
      exact escaped.no_closing (head ▸ inside)

/-! ### Texts that change when they are escaped again -/

/-- What comes to stand for each text of `reviving`: a backslash in front of an ampersand, or the
form of a special character. -/
theorem revived : ∀ s ∈ reviving, ∃ s',
    (∀ rest, substitute (wordAt forms) (s ++ rest) = s' ++ substitute (wordAt forms) rest) ∧
      (['\\', '&'] <+: s' ∨ s' ∈ ["\\(+-".toList, "\\[+-]".toList]) := by
  simp only [reviving, List.map_cons, List.map_nil, List.forall_mem_cons]
  refine ⟨⟨"\\&lt;".toList, fun _ => rfl, ?_⟩, ⟨"\\&gt;".toList, fun _ => rfl, ?_⟩,
    ⟨"\\(+-".toList, fun _ => rfl, ?_⟩, ⟨"\\(+-".toList, fun _ => rfl, ?_⟩,
    ⟨"\\[+-]".toList, fun _ => rfl, ?_⟩, ⟨"\\[+-]".toList, fun _ => rfl, ?_⟩, by simp⟩
  all_goals decide

/-- A form of a special character whose name holds a hyphen stays when it is prepared. -/
theorem prepared_form : ∀ s ∈ ["\\(+-".toList, "\\[+-]".toList],
    s.head? = some '\\' ∧ (s, "&plusmn;".toList) ∈ forms ∧
      ∀ rest, substitute simpleEscapeAt (s ++ rest) = s ++ substitute simpleEscapeAt rest ∧
        substitute ampersandAt (s ++ rest) = s ++ substitute ampersandAt rest := by
  have known : ("+-".toList, "&plusmn;".toList) ∈ specialCharacters := by decide
  have form {spelled : Text} (spelled_ : spelled ∈ spellings "+-".toList) :
      ('\\' :: spelled, "&plusmn;".toList) ∈ forms :=
    List.mem_append_left _ (List.mem_append_left _
      (mem_formsOf.mpr ⟨_, spelled, known, spelled_, rfl⟩))
  simp only [List.forall_mem_cons]
  exact ⟨⟨rfl, form (by decide), fun _ => ⟨rfl, rfl⟩⟩,
    ⟨rfl, form (by decide), fun _ => ⟨rfl, rfl⟩⟩, by simp⟩

theorem visits_forms (text : Text) : Visits (wordAt forms) '\\' text := by
  intro c s found width _ answer
  obtain ⟨word, mem, ⟨rest, split⟩, rfl⟩ := mem_of_wordAt answer
  obtain ⟨d, key, rfl⟩ := List.exists_cons_of_ne_nil (isForm_of_mem _ mem).positive
  rw [List.cons_append, List.cons.injEq] at split
  obtain ⟨-, rfl⟩ := split
  rw [List.length_cons, Nat.add_sub_cancel, List.take_left]
  exact (isForm_of_mem _ mem).inside

theorem visits_ampersandAt (text : Text) : Visits ampersandAt '\\' text := by
  intro c s found width _ answer
  obtain ⟨-, rfl⟩ := ampersandAt_eq_some answer
  simp

/-- No backslash of an escaped text stands behind another one. -/
theorem visits_simpleEscapeAt (text : Text) : Visits simpleEscapeAt '\\' (escape text) := by
  intro c s found width ends answer
  obtain ⟨d, rest, rfl, rfl, -, rfl⟩ := simpleEscapeAt_eq_some answer
  rcases resolved_or_bracket ends with resolved | ⟨rfl, -⟩
  · intro mem
    obtain rfl := List.mem_singleton.mp mem
    exact absurd resolved (by decide)
  · simp

theorem spares_forms : Spares '\\' (wordAt forms) := by
  intro c s found width answer
  rw [List.count_eq_zero.mpr (not_mem_of_forms answer)]
  exact Nat.zero_le _

theorem spares_ampersandAt : Spares '\\' ampersandAt := by
  intro c s found width answer
  rw [List.count_eq_zero.mpr (backslash_not_mem_of_ampersandAt answer)]
  exact Nat.zero_le _

theorem spares_simpleEscapeAt : Spares '\\' simpleEscapeAt := by
  intro c s found width answer
  obtain ⟨d, rest, rfl, rfl, rfl, -⟩ := simpleEscapeAt_eq_some answer
  rw [List.count_cons_self]
  rcases simpleEscape_cases d with plain | ⟨e, more, eq, -, plain⟩
  · rw [List.count_eq_zero.mpr plain]
    exact Nat.zero_le _
  · rw [eq, List.count_cons_self, List.count_eq_zero.mpr plain]
    omega

/-- A text with a backslash in front of an ampersand loses a backslash when it is prepared. -/
theorem count_prepare_lt {rest : Text} (ends : ['\\', '&'] ++ rest <:+ escape text) :
    (prepare (escape text)).count '\\' < (escape text).count '\\' := by
  have lost := spares_simpleEscapeAt.count_lt (visits_simpleEscapeAt text) ends rfl (by decide)
  have later := spares_ampersandAt.count_le (substitute simpleEscapeAt (escape text))
  exact Nat.lt_of_le_of_lt later lost

theorem count_prepare_le (text : Text) : (prepare text).count '\\' ≤ text.count '\\' :=
  Nat.le_trans (spares_ampersandAt.count_le _) (spares_simpleEscapeAt.count_le text)

/-- A text of `reviving` makes an escaped text lose a backslash when it is escaped again. -/
theorem count_escape_lt {s : Text} (mem : s ∈ reviving) (stands : s <:+: prepare text) :
    (escape (escape text)).count '\\' < (escape text).count '\\' := by
  obtain ⟨front, back, split⟩ := stands
  have suffix : s ++ back <:+ prepare text := ⟨front, by rw [← split, List.append_assoc]⟩
  obtain ⟨s', becomes, kind⟩ := revived s mem
  obtain ⟨key, rfl⟩ := List.head?_eq_some_iff.mp (reviving_start s mem)
  have ends : s' ++ substitute (wordAt forms) back <:+ escape text := by
    rw [escape_eq, ← becomes]
    exact (visits_forms _).suffix_substitute suffix
  have named := spares_forms.count_le (prepare (escape text))
  rw [← escape_eq] at named
  rcases kind with ⟨rest, rfl⟩ | form
  · rw [List.append_assoc] at ends
    exact Nat.lt_of_le_of_lt named (count_prepare_lt ends)
  · obtain ⟨start, entry, stays⟩ := prepared_form s' form
    obtain ⟨key', rfl⟩ := List.head?_eq_some_iff.mp start
    have simple : '\\' :: key' ++ substitute simpleEscapeAt (substitute (wordAt forms) back) <:+
        substitute simpleEscapeAt (escape text) := by
      rw [← (stays _).1]
      exact (visits_simpleEscapeAt text).suffix_substitute ends
    have prepared : '\\' :: key' ++ substitute ampersandAt (substitute simpleEscapeAt
        (substitute (wordAt forms) back)) <:+ prepare (escape text) := by
      rw [← (stays _).2]
      exact (visits_ampersandAt _).suffix_substitute simple
    have lost := spares_forms.count_lt (visits_forms _) prepared
      (wordAt_of_mem _ forms_distinct entry) (by decide)
    rw [← escape_eq] at lost
    exact Nat.lt_of_lt_of_le lost (count_prepare_le _)

/-- An escaped text comes out unchanged exactly if no text of `reviving` stands in what was prepared
from the text. -/
theorem escape_escape_eq_iff (text : Text) :
    escape (escape text) = escape text ↔ ∀ s ∈ reviving, ¬s <:+: prepare text := by
  refine ⟨fun same s mem stands => ?_, escape_eq_self⟩
  exact Nat.ne_of_lt (count_escape_lt mem stands) (congrArg (List.count '\\') same)

theorem not_escape_idempotent : ¬∀ text, escape (escape text) = escape text :=
  fun idempotent => absurd (idempotent "\\<".toList) (by decide +kernel)

end ManPage.Inline
