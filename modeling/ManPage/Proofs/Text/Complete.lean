import Mathlib.Algebra.Group.Nat.Even
import Mathlib.Data.List.DropRight
import ManPage.Proofs.Text.Scan

/-! Texts that end with no part of an escape. A scan for backslashes with the characters behind them
pairs the backslashes of a stretch from its start on. So it leaves none over where a text ends with
an even number of them, and what follows such a text is scanned as it is alone. -/

namespace ManPage.Text

variable {c : Char} {first rest text : Text}

/-- A text that ends with an even number of backslashes. -/
def IsComplete (text : Text) : Prop :=
  Even (text.rtakeWhile (· == '\\')).length

instance : Decidable (IsComplete text) :=
  inferInstanceAs (Decidable (Even _))

theorem isComplete_nil : IsComplete [] := by
  decide

theorem not_isComplete_backslash : ¬IsComplete ['\\'] := by
  decide

theorem rtakeWhile_append_cons {p : Char → Bool} (stop : p c = false) (first rest : Text) :
    (first ++ c :: rest).rtakeWhile p = rest.rtakeWhile p := by
  induction rest using List.reverseRecOn with
  | nil => simp [stop]
  | append_singleton rest d ih =>
    rw [← List.cons_append, ← List.append_assoc, List.rtakeWhile_concat, List.rtakeWhile_concat, ih]

/-- What stands in front of a character other than a backslash does not matter. -/
theorem isComplete_append_cons (other : c ≠ '\\') (first rest : Text) :
    IsComplete (first ++ c :: rest) ↔ IsComplete rest := by
  rw [IsComplete, rtakeWhile_append_cons (by simpa using other), IsComplete]

theorem isComplete_cons (other : c ≠ '\\') (rest : Text) :
    IsComplete (c :: rest) ↔ IsComplete rest :=
  isComplete_append_cons other [] rest

theorem isComplete_append (plain : '\\' ∉ first) :
    IsComplete (first ++ rest) ↔ IsComplete rest := by
  induction first with
  | nil => rfl
  | cons c first ih =>
    rw [List.mem_cons, not_or, ← ne_eq, ne_comm] at plain
    rw [List.cons_append, isComplete_cons plain.1, ih plain.2]

theorem isComplete_pair (c : Char) (rest : Text) :
    IsComplete ('\\' :: c :: rest) ↔ IsComplete rest := by
  by_cases other : c = '\\'
  · subst other
    by_cases plain : ∀ d ∈ rest, d = '\\'
    · have same {text : Text} (backslashes : ∀ d ∈ text, d = '\\') :
          text.rtakeWhile (· == '\\') = text :=
        List.rtakeWhile_eq_self_iff.mpr fun d mem => by simp [backslashes d mem]
      rw [IsComplete, IsComplete, same plain, same (by simpa using plain), List.length_cons,
        List.length_cons, Nat.even_add_one, Nat.even_add_one, not_not]
    · push Not at plain
      obtain ⟨d, mem, other⟩ := plain
      obtain ⟨front, back, rfl⟩ := List.append_of_mem mem
      rw [isComplete_append_cons other,
        ← isComplete_append_cons other ('\\' :: '\\' :: front) back]
      rfl
  · exact isComplete_append_cons other ['\\'] rest

/-- Where a character other than a backslash stands behind the first one, it ends what the first
one begins. -/
theorem IsComplete.tail (complete : IsComplete (c :: rest)) {stop : Char} (inside : stop ∈ rest)
    (other : stop ≠ '\\') : IsComplete rest := by
  obtain ⟨front, back, rfl⟩ := List.append_of_mem inside
  have behind := (isComplete_append_cons other (c :: front) back).mp complete
  exact (isComplete_append_cons other front back).mpr behind

/-- Induction over the characters and the escapes of a complete text. -/
@[elab_as_elim]
theorem IsComplete.induction {motive : (text : Text) → IsComplete text → Prop}
    (nil : motive [] isComplete_nil)
    (char : ∀ c rest (other : c ≠ '\\') (tail : IsComplete rest), motive rest tail →
      motive (c :: rest) ((isComplete_cons other rest).mpr tail))
    (pair : ∀ c rest (tail : IsComplete rest), motive rest tail →
      motive ('\\' :: c :: rest) ((isComplete_pair c rest).mpr tail))
    (complete : IsComplete text) : motive text complete := by
  induction hn : text.length using Nat.strongRecOn generalizing text with
  | ind n ih =>
    subst hn
    match text with
    | [] => exact nil
    | c :: rest =>
      by_cases escape : c = '\\'
      · subst escape
        match rest with
        | [] => exact absurd complete not_isComplete_backslash
        | d :: rest =>
          have tail := (isComplete_pair d rest).mp complete
          have shorter : rest.length < ('\\' :: d :: rest).length := by
            simp only [List.length_cons]
            omega
          exact pair d rest tail (ih rest.length shorter tail rfl)
      · have tail := (isComplete_cons escape rest).mp complete
        exact char c rest escape tail (ih rest.length (by simp) tail rfl)

/-- `find` finds a backslash with the character behind it, and nothing else. -/
structure FindsPairs (find : Finder Text) : Prop where
  char : ∀ c rest, c ≠ '\\' → find (c :: rest) = none
  pair : ∀ c, ∃ found, ∀ rest, find ('\\' :: c :: rest) = some (found, 2)

/-- A complete text is substituted apart from what follows it. -/
theorem FindsPairs.substitute_append {find : Finder Text} (finds : FindsPairs find)
    (complete : IsComplete first) (second : Text) :
    substitute find (first ++ second) = substitute find first ++ substitute find second := by
  induction complete using IsComplete.induction with
  | nil => rfl
  | char c rest other _ ih =>
    rw [List.cons_append, substitute_of_none (finds.char c _ other),
      substitute_of_none (finds.char c _ other), ih, List.cons_append]
  | pair c rest _ ih =>
    obtain ⟨found, answer⟩ := finds.pair c
    rw [List.cons_append, List.cons_append, substitute_of_some (answer _),
      substitute_of_some (answer _), List.append_assoc]
    exact congrArg (found ++ ·) ih

end ManPage.Text
