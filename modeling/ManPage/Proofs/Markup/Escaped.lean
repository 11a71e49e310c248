import ManPage.Inline.Glyph

/-! Texts without markup: no angle bracket stands in them, and each ampersand begins an entity of
the output. Such a text may be cut in front of any character that no entity holds behind its
ampersand, and may be put together with others. -/

namespace ManPage.Markup

open Inline

/-- A text in which each ampersand begins an entity of the output. -/
def Guarded : Text → Prop
  | [] => True
  | c :: rest => (c = '&' → ∃ entity ∈ ownEntities, entity <+: c :: rest) ∧ Guarded rest

/-- A text without markup. -/
structure Escaped (text : Text) : Prop where
  guarded : Guarded text
  no_opening : '<' ∉ text
  no_closing : '>' ∉ text

def isPlain (c : Char) : Bool :=
  c != '<' && c != '>' && c != '&'

/-- A character that can stand in an entity behind its ampersand. -/
def isEntityChar (c : Char) : Bool :=
  c.isAlphanum || c == '#' || c == ';'

/-! ### The entities of the output -/

theorem ownEntities_form :
    ∀ entity ∈ ownEntities, entity.head? = some '&' ∧ entity.tail.all isEntityChar := by
  decide

/-- The entities of the markup characters and of a quote are entities of the output. -/
theorem mem_ownEntities {entity : Text}
    (h : entity ∈ ["&amp;".toList, "&lt;".toList, "&gt;".toList, "&quot;".toList]) :
    entity ∈ ownEntities := by
  revert entity
  decide

theorem ownEntities_eq_cons {entity : Text} (h : entity ∈ ownEntities) :
    ∃ body, entity = '&' :: body ∧ ∀ c ∈ body, isEntityChar c := by
  obtain ⟨head, tail⟩ := ownEntities_form entity h
  cases entity with
  | nil => simp at head
  | cons c body =>
    simp only [List.head?_cons, Option.some.injEq] at head
    exact ⟨body, by rw [head], by simpa using tail⟩

theorem ne_of_isEntityChar {c d : Char} (h : isEntityChar c) (hd : isEntityChar d = false) :
    c ≠ d := by
  rintro rfl
  simp [h] at hd

theorem mem_ownEntity {entity : Text} (h : entity ∈ ownEntities) {c : Char} (hc : c ∈ entity) :
    c = '&' ∨ isEntityChar c := by
  obtain ⟨body, rfl, chars⟩ := ownEntities_eq_cons h
  exact (List.mem_cons.mp hc).imp id (chars c)

/-! ### Texts in which each ampersand begins an entity -/

theorem Guarded.tail {c : Char} {rest : Text} (h : Guarded (c :: rest)) : Guarded rest := h.2

theorem Guarded.drop {text : Text} (h : Guarded text) (n : Nat) : Guarded (text.drop n) := by
  induction n generalizing text with
  | zero => exact h
  | succ n ih =>
    cases text with
    | nil => exact h
    | cons c rest => exact ih h.tail

theorem Guarded.of_suffix {text rest : Text} (h : Guarded text) (suffix : rest <:+ text) :
    Guarded rest := by
  rw [List.suffix_iff_eq_drop.mp suffix]
  exact h.drop _

theorem guarded_of_not_mem {text : Text} (h : '&' ∉ text) : Guarded text := by
  induction text with
  | nil => trivial
  | cons c rest ih =>
    simp only [List.mem_cons, not_or] at h
    exact ⟨fun hc => absurd hc.symm h.1, ih h.2⟩

theorem Guarded.append {a b : Text} (ha : Guarded a) (hb : Guarded b) : Guarded (a ++ b) := by
  induction a with
  | nil => exact hb
  | cons c a ih =>
    refine ⟨fun hc => ?_, ih ha.2⟩
    obtain ⟨entity, own, start⟩ := ha.1 hc
    exact ⟨entity, own, start.trans (List.prefix_append (c :: a) b)⟩

theorem guarded_entity {entity : Text} (h : entity ∈ ownEntities) : Guarded entity := by
  obtain ⟨body, rfl, chars⟩ := ownEntities_eq_cons h
  refine ⟨fun _ => ⟨_, h, List.prefix_refl _⟩, guarded_of_not_mem fun amp => ?_⟩
  exact ne_of_isEntityChar (chars _ amp) (by decide) rfl

/-- What follows a stretch of text may be exchanged where the part of an entity that reaches into it
stays as it is. -/
theorem Guarded.exchange {a b b' : Text} (h : Guarded (a ++ b)) (hb' : Guarded b')
    (keeps : ∀ body : Text, (∀ c ∈ body, isEntityChar c) → body <+: b → body <+: b') :
    Guarded (a ++ b') := by
  induction a with
  | nil => exact hb'
  | cons c a ih =>
    rw [List.cons_append] at h ⊢
    refine ⟨fun hc => ?_, ih h.2⟩
    obtain ⟨entity, own, start⟩ := h.1 hc
    obtain ⟨body, rfl, chars⟩ := ownEntities_eq_cons own
    refine ⟨_, own, List.cons_prefix_cons.mpr ⟨hc.symm, ?_⟩⟩
    have start := (List.cons_prefix_cons.mp start).2
    rcases List.prefix_or_prefix_of_prefix start (List.prefix_append a b) with inside | reaches
    · exact inside.trans (List.prefix_append a b')
    · obtain ⟨reaching, rfl⟩ := reaches
      rw [List.prefix_append_right_inj] at start ⊢
      exact keeps reaching (fun c hc => chars c (List.mem_append_right a hc)) start

/-! ### Texts without markup -/

theorem escaped_nil : Escaped [] := ⟨trivial, by simp, by simp⟩

theorem Escaped.append {a b : Text} (ha : Escaped a) (hb : Escaped b) : Escaped (a ++ b) :=
  ⟨ha.guarded.append hb.guarded, by simp [ha.no_opening, hb.no_opening],
    by simp [ha.no_closing, hb.no_closing]⟩

theorem Escaped.tail {c : Char} {rest : Text} (h : Escaped (c :: rest)) : Escaped rest :=
  ⟨h.guarded.tail, fun hm => h.no_opening (List.mem_cons_of_mem c hm),
    fun hm => h.no_closing (List.mem_cons_of_mem c hm)⟩

theorem Escaped.drop {text : Text} (h : Escaped text) (n : Nat) : Escaped (text.drop n) :=
  ⟨h.guarded.drop n, fun hm => h.no_opening (List.mem_of_mem_drop hm),
    fun hm => h.no_closing (List.mem_of_mem_drop hm)⟩

theorem escaped_of_plain {text : Text} (h : text.all isPlain) : Escaped text := by
  have plain (c : Char) (other : isPlain c = false) : c ∉ text := by
    intro mem
    rw [List.all_eq_true.mp h c mem] at other
    cases other
  exact ⟨guarded_of_not_mem (plain '&' rfl), plain '<' rfl, plain '>' rfl⟩

theorem Escaped.cons {c : Char} {rest : Text} (plain : isPlain c) (h : Escaped rest) :
    Escaped (c :: rest) := by
  have single : Escaped [c] := escaped_of_plain (by simp [plain])
  exact single.append h

theorem escaped_entity {entity : Text} (h : entity ∈ ownEntities) : Escaped entity := by
  refine ⟨guarded_entity h, fun hm => ?_, fun hm => ?_⟩
  all_goals
    rcases mem_ownEntity h hm with hc | hc
    · exact absurd hc (by decide)
    · exact ne_of_isEntityChar hc (by decide) rfl

end ManPage.Markup
