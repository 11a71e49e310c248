import ManPage.Text.Basic
import Mathlib.Data.List.Basic

/-! Texts that are cut: at the first of some character, behind a start, or before an end. -/

namespace ManPage.Text

variable {c : Char} {text before after start : Text}

theorem cutAt?_eq_none_iff : cutAt? c text = none ↔ c ∉ text := by
  induction text with
  | nil => simp [cutAt?]
  | cons a rest ih =>
    rw [cutAt?]
    by_cases here : a = c
    · simp [here]
    · rw [if_neg here, Option.map_eq_none_iff, ih, List.mem_cons, not_or]
      exact ⟨fun absent => ⟨Ne.symm here, absent⟩, And.right⟩

/-- A text is cut at the first place where it can be. -/
theorem cutAt?_eq_some_iff :
    cutAt? c text = some (before, after) ↔ text = before ++ c :: after ∧ c ∉ before := by
  induction text generalizing before with
  | nil => simp [cutAt?]
  | cons a rest ih =>
    rw [cutAt?]
    by_cases here : a = c
    · subst here
      rw [if_pos rfl]
      constructor
      · intro eq
        cases eq
        exact ⟨rfl, List.not_mem_nil⟩
      · rintro ⟨eq, absent⟩
        cases before with
        | nil =>
          cases eq
          rfl
        | cons b before =>
          cases eq
          exact absurd List.mem_cons_self absent
    · rw [if_neg here, Option.map_eq_some_iff]
      constructor
      · rintro ⟨⟨before', after'⟩, cut, eq⟩
        cases eq
        obtain ⟨rfl, absent⟩ := ih.mp cut
        refine ⟨rfl, ?_⟩
        rw [List.mem_cons, not_or]
        exact ⟨Ne.symm here, absent⟩
      · rintro ⟨eq, absent⟩
        cases before with
        | nil =>
          cases eq
          exact absurd rfl here
        | cons b before =>
          cases eq
          exact ⟨(before, after), ih.mpr ⟨rfl, fun mem => absent (List.mem_cons_of_mem _ mem)⟩, rfl⟩

theorem after?_eq_some_iff : after? start text = some after ↔ text = start ++ after := by
  unfold after?
  constructor
  · intro h
    obtain ⟨begins, eq⟩ := Option.ite_none_right_eq_some.mp h
    obtain ⟨rest, rfl⟩ := List.isPrefixOf_iff_prefix.mp begins
    rw [List.drop_left, Option.some.injEq] at eq
    rw [eq]
  · rintro rfl
    simp

theorem before?_eq_some_iff : before? c text = some before ↔ text = before ++ [c] := by
  unfold before?
  constructor
  · intro h
    obtain ⟨last, eq⟩ := Option.ite_none_right_eq_some.mp h
    obtain ⟨start', rfl⟩ := List.getLast?_eq_some_iff.mp last
    rw [List.dropLast_concat, Option.some.injEq] at eq
    rw [eq]
  · rintro rfl
    simp

end ManPage.Text
