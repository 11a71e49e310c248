import ManPage.Proofs.Inline.Form
import ManPage.Proofs.Text.Complete

/-! Separators between texts that are escaped apart. A blank, and the entity of an escape that
separates, begin with a character that no entity and no form holds behind its first. So neither
reaches over a separator, and to escape a text with one in it is to escape its parts. -/

namespace ManPage.Inline

open Text Markup

variable {separator second : Text}

/-- The escapes of a backslash and of a fixed space. -/
def separatingEscapes : List Text :=
  ["\\e", "\\\\", "\\~", "\\ "].map String.toList

/-- A text that separates what stands on its sides. -/
inductive IsSeparator : Text → Prop
  | blank {c : Char} : isBlank c → IsSeparator [c]
  | escape {text : Text} : text ∈ separatingEscapes → IsSeparator text

/-! ### Where a text can be cut -/

/-- A character that no entity and no form holds behind its first. -/
def isBoundaryChar (c : Char) : Bool :=
  c == '&' || isBlank c

theorem tail_ownEntities : ∀ entity ∈ ownEntities, entity.tail.all (!isBoundaryChar ·) := by
  decide

theorem tail_forms :
    ∀ entry ∈ forms, entry.1.tail.all (!isBoundaryChar ·) ∧ entry.1.head?.any (!isBlank ·) := by
  decide +kernel

/-- Ampersands are escaped apart in front of a character that no entity holds behind its first. -/
theorem substitute_ampersandAt_cut
    (outside : ∀ entity ∈ ownEntities, ∀ c ∈ second.head?, c ∉ entity.tail) (first : Text) :
    substitute ampersandAt (first ++ second) =
      substitute ampersandAt first ++ substitute ampersandAt second := by
  refine substitute_append_of_cut (fun c s => ?_) (fun c s found width answer => ?_) first
  · by_cases amp : c = '&'
    · subst amp
      have same : (∃ entity ∈ ownEntities, entity <+: '&' :: (s ++ second)) ↔
          ∃ entity ∈ ownEntities, entity <+: '&' :: s :=
        exists_congr fun entity => and_congr_right fun own =>
          prefix_append_iff (List.cons_ne_nil '&' s) (outside entity own)
      simp only [List.cons_append, ampersandAt_amp, same]
    · exact (ampersandAt_of_ne amp).trans (ampersandAt_of_ne amp).symm
  · obtain ⟨-, rfl⟩ := ampersandAt_eq_some answer
    exact Nat.succ_le_succ (Nat.zero_le s.length)

/-- Forms are replaced apart in front of a character that no form holds behind its first. -/
theorem substitute_forms_cut
    (outside : ∀ entry ∈ forms, ∀ c ∈ second.head?, c ∉ entry.1.tail) (first : Text) :
    substitute (wordAt forms) (first ++ second) =
      substitute (wordAt forms) first ++ substitute (wordAt forms) second := by
  refine substitute_append_of_cut (fun c s => ?_) (fun c s found width answer => ?_) first
  · exact wordAt_append_right (List.cons_ne_nil c s) outside
  · obtain ⟨word, -, begins, rfl⟩ := mem_of_wordAt answer
    exact begins.length_le

section

variable (start : second.head?.any isBoundaryChar)

include start

theorem not_mem_tail {word : Text} (plain : word.tail.all (!isBoundaryChar ·)) :
    ∀ c ∈ second.head?, c ∉ word.tail := by
  intro c head mem
  have boundary : isBoundaryChar c = true := by simpa [Option.mem_def.mp head] using start
  have other := List.all_eq_true.mp plain c mem
  rw [boundary] at other
  cases other

theorem substitute_ampersandAt_append (first : Text) :
    substitute ampersandAt (first ++ second) =
      substitute ampersandAt first ++ substitute ampersandAt second :=
  substitute_ampersandAt_cut (fun entity own => not_mem_tail start (tail_ownEntities entity own))
    first

theorem substitute_forms_append (first : Text) :
    substitute (wordAt forms) (first ++ second) =
      substitute (wordAt forms) first ++ substitute (wordAt forms) second :=
  substitute_forms_cut (fun entry mem => not_mem_tail start (tail_forms entry mem).1) first

end

/-! ### Separators -/

/-- A text at which others are cut when ampersands and forms are replaced, and which stays as it
is. -/
structure IsBoundary (text : Text) : Prop where
  start : text.head?.any isBoundaryChar
  ampersands : ∀ rest, substitute ampersandAt (text ++ rest) = text ++ substitute ampersandAt rest
  forms : ∀ rest,
    substitute (wordAt forms) (text ++ rest) = text ++ substitute (wordAt forms) rest

theorem isBoundary_blank {c : Char} (blank : isBlank c) : IsBoundary [c] where
  start := by simp [isBoundaryChar, blank]
  ampersands rest := substitute_of_none (ampersandAt_of_ne (by rintro rfl; cases blank))
  forms rest := by
    refine substitute_of_none (wordAt_eq_none_iff.mpr fun entry mem begins => ?_)
    obtain ⟨d, head, visible⟩ := (Option.any_eq_true _ _).mp (tail_forms entry mem).2
    obtain ⟨word, eq⟩ := List.head?_eq_some_iff.mp head
    obtain ⟨rfl, -⟩ := List.cons_prefix_cons.mp (eq ▸ begins)
    rw [blank] at visible
    cases visible

theorem isBoundary_entity : ∀ entity ∈ ["&#92;".toList, "&nbsp;".toList], IsBoundary entity := by
  simp only [List.forall_mem_cons]
  exact ⟨⟨rfl, fun _ => rfl, fun _ => rfl⟩, ⟨rfl, fun _ => rfl, fun _ => rfl⟩, by simp⟩

theorem findsPairs_simpleEscapeAt : FindsPairs simpleEscapeAt where
  char _ _ other := simpleEscapeAt_of_ne other
  pair _ := ⟨_, fun _ => rfl⟩

/-- A separator ends with no part of an escape, and resolving its escape gives a boundary. -/
theorem IsSeparator.resolved (separates : IsSeparator separator) :
    IsComplete separator ∧ IsBoundary (substitute simpleEscapeAt separator) := by
  cases separates with
  | @blank c blank =>
    have other : c ≠ '\\' := by rintro rfl; cases blank
    rw [substitute_of_none (findsPairs_simpleEscapeAt.char c [] other)]
    exact ⟨(isComplete_cons other []).mpr isComplete_nil, isBoundary_blank blank⟩
  | escape mem =>
    have known : ∀ text ∈ separatingEscapes, IsComplete text ∧
        substitute simpleEscapeAt text ∈ ["&#92;".toList, "&nbsp;".toList] := by
      decide
    exact ⟨(known _ mem).1, isBoundary_entity _ (known _ mem).2⟩

/-- What stands in front of a separator and what stands behind it are escaped apart, unless a
backslash in front reaches into the separator. -/
theorem escape_append_separator {first : Text} (complete : IsComplete first)
    (separates : IsSeparator separator) (second : Text) :
    escape (first ++ separator ++ second) = escape first ++ escape separator ++ escape second := by
  obtain ⟨whole, boundary⟩ := separates.resolved
  have start (rest : Text) :
      (substitute simpleEscapeAt separator ++ rest).head?.any isBoundaryChar := by
    obtain ⟨c, head, is⟩ := (Option.any_eq_true _ _).mp boundary.start
    simp [head, is]
  have apart : prepare (first ++ separator ++ second) =
      prepare first ++ (substitute simpleEscapeAt separator ++ prepare second) := by
    rw [prepare, List.append_assoc, findsPairs_simpleEscapeAt.substitute_append complete,
      findsPairs_simpleEscapeAt.substitute_append whole,
      substitute_ampersandAt_append (start _), boundary.ampersands]
    rfl
  have alone : escape separator = substitute simpleEscapeAt separator := by
    have ampersands := boundary.ampersands []
    have named := boundary.forms []
    rw [List.append_nil, substitute_nil, List.append_nil] at ampersands named
    rw [escape_eq, prepare, ampersands, named]
  rw [escape_eq, apart, substitute_forms_append (start _), boundary.forms, alone, escape_eq,
    escape_eq, List.append_assoc]

/-- The start of a name in front, which goes up to a bracket behind, and a backslash that is an
escape itself. -/
theorem escape_append_separator_bracket :
    let first := "&\\-\\\\\\*[l".toList
    let separator := "\\~".toList
    let second := "q]amp;<\\(lq".toList
    IsComplete first ∧ IsSeparator separator ∧
      escape (first ++ separator ++ second) =
        escape first ++ escape separator ++ escape second := by
  intro first separator second
  have complete : IsComplete first := by decide +kernel
  have separates : IsSeparator separator := .escape (by decide)
  exact ⟨complete, separates, escape_append_separator complete separates second⟩

end ManPage.Inline
