import Mathlib.Data.List.Nodup
import ManPage.Anchor
import ManPage.Document.Step
import ManPage.Proofs.Markup.Item
import ManPage.Proofs.Text.Pieces

/-! The identifiers of headings. As a value of an attribute an identifier holds no markup: each step
from the HTML of a heading to the value takes tags away, cuts in front of a blank, or changes
characters that no entity holds, so no ampersand loses its entity. Behind its base an identifier has
a number that makes it a new one. -/

namespace ManPage

open Text Markup Inline

theorem not_isBlank_of_isEntityChar {c : Char} (h : isEntityChar c) : isBlank c = false := by
  have small : c.toNat = 35 ∨ (48 ≤ c.toNat ∧ c.toNat ≤ 57) ∨ c.toNat = 59 ∨
      (65 ≤ c.toNat ∧ c.toNat ≤ 90) ∨ (97 ≤ c.toNat ∧ c.toNat ≤ 122) := by
    change ((((decide (c.val ≥ 65 ∧ c.val ≤ 90) ||
      (decide (c.val ≥ 97) && decide (c.val ≤ 122))) ||
      (decide (c.val ≥ 48) && decide (c.val ≤ 57))) || c == '#') || c == ';') = true at h
    simp only [Bool.or_eq_true, Bool.and_eq_true, decide_eq_true_eq, beq_iff_eq, ge_iff_le,
      UInt32.le_iff_toNat_le] at h
    rcases h with (((⟨h, h'⟩ | ⟨h, h'⟩) | ⟨h, h'⟩) | rfl) | rfl
    · exact .inr (.inr (.inr (.inl ⟨h, h'⟩)))
    · exact .inr (.inr (.inr (.inr ⟨h, h'⟩)))
    · exact .inr (.inl ⟨h, h'⟩)
    · exact .inl rfl
    · exact .inr (.inr (.inl rfl))
  simp only [isBlank, Bool.or_eq_false_iff, Bool.and_eq_false_iff, decide_eq_false_iff_not,
    beq_eq_false_iff_ne]
  omega

namespace Markup

/-- A text without markup may be cut in front of a character that no entity holds. -/
theorem Escaped.cut {text rest : Text} (h : Escaped (text ++ rest))
    (before : ∀ c ∈ rest.head?, isEntityChar c = false) : Escaped text := by
  refine ⟨?_, fun mem => h.no_opening (List.mem_append_left _ mem),
    fun mem => h.no_closing (List.mem_append_left _ mem)⟩
  rw [← List.append_nil text]
  refine h.guarded.exchange trivial fun body chars start => ?_
  cases body with
  | nil => exact List.prefix_refl _
  | cons c body =>
    obtain ⟨more, eq⟩ := start
    have plain := before c (by rw [← eq]; rfl)
    rw [chars c (by simp)] at plain
    cases plain

theorem Escaped.trim {text : Text} (h : Escaped text) : Escaped (trim text) := by
  have start : Escaped (trimStart text) := by
    obtain ⟨blanks, eq⟩ : trimStart text <:+ text := List.dropWhile_suffix _
    have dropped := h.drop blanks.length
    rwa [← eq, List.drop_left] at dropped
  obtain ⟨blanks, isBlanks, split⟩ := trimEnd_append (trimStart text)
  refine Escaped.cut (split.symm ▸ start) fun c mem => ?_
  have blank : isBlank c = true := isBlanks c (List.mem_of_mem_head? mem)
  by_cases entity : isEntityChar c = true
  · rw [not_isBlank_of_isEntityChar entity] at blank
    cases blank
  · simpa using entity

end Markup

/-! ### Tags -/

theorem stripTagsFrom_append {text : Text} (h : '<' ∉ text) (rest : Text) :
    stripTagsFrom false (text ++ rest) = text ++ stripTagsFrom false rest := by
  induction text with
  | nil => rfl
  | cons c text ih =>
    simp only [List.mem_cons, not_or] at h
    have other : c ≠ '<' := fun eq => h.1 eq.symm
    rw [List.cons_append, stripTagsFrom, if_neg other, if_neg (by decide), ih h.2]
    rfl

theorem stripTagsFrom_inside {inside : Text} (opening : '<' ∉ inside) (closing : '>' ∉ inside)
    (rest : Text) : stripTagsFrom true (inside ++ '>' :: rest) = stripTagsFrom false rest := by
  induction inside with
  | nil => rfl
  | cons c inside ih =>
    simp only [List.mem_cons, not_or] at opening closing
    have other : c ≠ '<' := fun eq => opening.1 eq.symm
    have other' : (c != '>') = true := by simpa using fun eq => closing.1 eq.symm
    rw [List.cons_append, stripTagsFrom, if_neg other, if_pos rfl, other', ih opening.2 closing.2]

theorem stripTags_of_not_mem {text : Text} (h : '<' ∉ text) : stripTags text = text := by
  have kept := stripTagsFrom_append h []
  rwa [List.append_nil, stripTagsFrom, List.append_nil] at kept

namespace Markup

theorem IsTag.stripTags_append {inside : Text} (h : IsTag inside) (rest : Text) :
    stripTags ('<' :: inside ++ ['>'] ++ rest) = stripTags rest := by
  unfold stripTags
  rw [List.append_assoc, List.cons_append, stripTagsFrom, if_pos rfl, List.singleton_append,
    stripTagsFrom_inside h.no_bracket.1 h.no_bracket.2]

theorem IsTag.stripTags_eq_nil {inside : Text} (h : IsTag inside) :
    stripTags ('<' :: inside ++ ['>']) = [] := by
  rw [← List.append_nil ('<' :: inside ++ ['>']), h.stripTags_append]
  rfl

theorem IsItem.stripTags_append {item : Text} (h : IsItem item) (rest : Text) :
    stripTags (item ++ rest) = stripTags item ++ stripTags rest := by
  have plain {text : Text} (h : '<' ∉ text) :
      stripTags (text ++ rest) = stripTags text ++ stripTags rest := by
    rw [stripTags_of_not_mem h]
    exact stripTagsFrom_append h rest
  cases h with
  | char opening => exact plain (by simpa using opening.symm)
  | entity own => exact plain (escaped_entity own).no_opening
  | tag tag =>
    rw [tag.stripTags_eq_nil, tag.stripTags_append]
    rfl

theorem IsItem.escaped_stripTags {item : Text} (h : IsItem item) : Escaped (stripTags item) := by
  cases h with
  | char opening closing ampersand =>
    rw [stripTags_of_not_mem (by simpa using opening.symm)]
    exact escaped_of_plain (by simp [isPlain, opening, closing, ampersand])
  | entity own =>
    rw [stripTags_of_not_mem (escaped_entity own).no_opening]
    exact escaped_entity own
  | tag tag =>
    rw [tag.stripTags_eq_nil]
    exact escaped_nil

end Markup

/-- HTML without its tags holds no markup. -/
theorem escaped_stripTags {html : Text} (h : IsHtml html) : Escaped (stripTags html) := by
  obtain ⟨items, rfl, fits⟩ := h
  induction items with
  | nil => exact escaped_nil
  | cons item items ih =>
    have head := fits item List.mem_cons_self
    rw [List.flatten_cons, head.stripTags_append]
    exact head.escaped_stripTags.append (ih fun item mem => fits item (List.mem_cons_of_mem _ mem))

namespace Anchors

/-! ### Blanks -/

theorem prefix_underscore {body text : Text} (chars : ∀ c ∈ body, isEntityChar c)
    (start : body <+: text) : body <+: underscore text := by
  induction body generalizing text with
  | nil => exact List.nil_prefix
  | cons c body ih =>
    obtain ⟨rest, rfl⟩ := start
    have visible := not_isBlank_of_isEntityChar (chars c (by simp))
    rw [List.cons_append, underscore, if_neg (by simp [visible]), List.cons_prefix_cons]
    exact ⟨rfl, ih (fun d hd => chars d (List.mem_cons_of_mem c hd)) (List.prefix_append _ _)⟩

theorem mem_underscore {c : Char} {text : Text} (h : c ∈ underscore text) : c = '_' ∨ c ∈ text := by
  induction text with
  | nil => simp [underscore] at h
  | cons d rest ih =>
    unfold underscore at h
    split at h
    · split at h
      · exact (ih h).imp_right (List.mem_cons_of_mem d)
      · rcases List.mem_cons.mp h with rfl | h
        · exact .inl rfl
        · exact (ih h).imp_right (List.mem_cons_of_mem d)
    · rcases List.mem_cons.mp h with rfl | h
      · exact .inr (by simp)
      · exact (ih h).imp_right (List.mem_cons_of_mem d)

theorem guarded_underscore {text : Text} (h : Guarded text) : Guarded (underscore text) := by
  induction text with
  | nil => trivial
  | cons c rest ih =>
    unfold underscore
    split
    · split
      · exact ih h.tail
      · exact ⟨fun eq => absurd eq (by decide), ih h.tail⟩
    · exact Guarded.exchange (a := [c]) h (ih h.tail)
        fun body chars start => prefix_underscore chars start

theorem escaped_underscore {text : Text} (h : Escaped text) : Escaped (underscore text) := by
  refine ⟨guarded_underscore h.guarded, fun mem => ?_, fun mem => ?_⟩
  · rcases mem_underscore mem with eq | mem
    · exact absurd eq (by decide)
    · exact h.no_opening mem
  · rcases mem_underscore mem with eq | mem
    · exact absurd eq (by decide)
    · exact h.no_closing mem

/-! ### Identifiers -/

theorem escaped_base {html : Text} (h : IsHtml html) : Escaped (base html) :=
  escaped_underscore (escaped_stripTags h).trim

theorem escaped_numbered {text : Text} (h : Escaped text) (k : Nat) :
    Escaped (numbered text k) := by
  refine h.append (escaped_of_plain (List.all_eq_true.mpr fun c mem => ?_))
  have digit : c = '_' ∨ c.isDigit := by
    rcases List.mem_cons.mp mem with eq | mem
    · exact .inl eq
    · exact .inr (Nat.isDigit_of_mem_toDigits (by decide) (by decide) mem)
  rcases digit with rfl | digit
  · decide
  · have other {d : Char} (h : d.isDigit = false) : c ≠ d := by
      rintro rfl
      rw [digit] at h
      cases h
    have opening : c ≠ '<' := other rfl
    have closing : c ≠ '>' := other rfl
    have ampersand : c ≠ '&' := other rfl
    simp [isPlain, opening, closing, ampersand]

/-- The identifier of a heading holds no markup. -/
theorem escaped_register (anchors : Anchors) {html : Text} (h : IsHtml html) :
    Escaped (anchors.register html).1 := by
  show Escaped (anchors.fresh (base html))
  unfold fresh
  split
  · exact escaped_numbered (escaped_base h) _
  · exact escaped_base h

/-! ### Numbers -/

theorem numbered_inj {base : Text} {k k' : Nat} (h : numbered base k = numbered base k') :
    k = k' := by
  have digits : Nat.toDigits 10 k = Nat.toDigits 10 k' :=
    (List.cons.inj (List.append_cancel_left h)).2
  have value := congrArg (fun digits => Nat.ofDigitChars 10 digits 0) digits
  simpa only [Nat.ofDigitChars_ten_toDigits] using value

theorem numbered_ne (base : Text) (k : Nat) : numbered base k ≠ base := by
  intro h
  have length := congrArg List.length h
  simp only [numbered, List.length_append, List.length_cons] at length
  omega

/-- The search for a free number ends at one, unless every number that it tries is taken. -/
theorem freeNumber_spec (given : List Text) (base : Text) (tries k : Nat) :
    numbered base (freeNumber given base tries k) ∉ given ∨
      ∀ i, k ≤ i → i < k + tries → numbered base i ∈ given := by
  induction tries generalizing k with
  | zero =>
    refine .inr fun i low high => ?_
    omega
  | succ tries ih =>
    unfold freeNumber
    split
    · rename_i taken
      have mem : numbered base k ∈ given := by simpa using taken
      refine (ih (k + 1)).imp_right fun all i low high => ?_
      by_cases first : i = k
      · exact first ▸ mem
      · exact all i (by omega) (by omega)
    · rename_i free
      exact .inl (by simpa using free)

/-- An identifier that is given out was not given out before. -/
theorem register_not_mem (anchors : Anchors) (html : Text) :
    (anchors.register html).1 ∉ anchors.given := by
  show anchors.fresh (base html) ∉ anchors.given
  unfold fresh
  split
  · rename_i taken
    have mem : base html ∈ anchors.given := by simpa using taken
    rcases freeNumber_spec anchors.given (base html) anchors.given.length 1 with free | all
    · exact free
    · -- The base and as many numbered ones as there are identifiers would all be among them.
      let candidates := base html ::
        (List.range' 1 anchors.given.length).map (numbered (base html))
      have distinct : candidates.Nodup := by
        refine List.nodup_cons.mpr ⟨fun h => ?_, ?_⟩
        · obtain ⟨k, -, eq⟩ := List.mem_map.mp h
          exact numbered_ne _ k eq
        · exact List.Nodup.map (fun _ _ => numbered_inj) List.nodup_range'
      have subset : candidates ⊆ anchors.given := by
        intro candidate h
        rcases List.mem_cons.mp h with rfl | h
        · exact mem
        · obtain ⟨k, range, rfl⟩ := List.mem_map.mp h
          have bounds := List.mem_range'_1.mp range
          exact all k bounds.1 (by omega)
      have count := distinct.length_le_of_subset subset
      simp only [candidates, List.length_cons, List.length_map, List.length_range'] at count
      omega
  · rename_i free
    simpa using free

end Anchors

namespace Document

/-! ### Quotes -/

theorem prefix_attributeValue {body text : Text} (chars : ∀ c ∈ body, isEntityChar c)
    (start : body <+: text) : body <+: attributeValue text := by
  obtain ⟨rest, rfl⟩ := start
  have same : attributeValue body = body := by
    unfold attributeValue
    induction body with
    | nil => rfl
    | cons c body ih =>
      have other : c ≠ '"' := ne_of_isEntityChar (chars c (by simp)) (by decide)
      rw [List.flatMap_cons, if_neg other, ih fun d hd => chars d (List.mem_cons_of_mem c hd)]
      rfl
  rw [attributeValue, List.flatMap_append, ← attributeValue, same]
  exact List.prefix_append _ _

theorem mem_attributeValue {c : Char} {text : Text} (h : c ∈ attributeValue text) :
    c ∈ "&quot;".toList ∨ (c ∈ text ∧ c ≠ '"') := by
  obtain ⟨d, mem, h⟩ := List.mem_flatMap.mp h
  by_cases eq : d = '"'
  · rw [if_pos eq] at h
    exact .inl h
  · rw [if_neg eq, List.mem_singleton] at h
    subst h
    exact .inr ⟨mem, eq⟩

theorem guarded_attributeValue {text : Text} (h : Guarded text) :
    Guarded (attributeValue text) := by
  induction text with
  | nil => trivial
  | cons c rest ih =>
    have tail := ih h.tail
    rw [attributeValue, List.flatMap_cons, ← attributeValue]
    by_cases eq : c = '"'
    · rw [if_pos eq]
      exact (guarded_entity (mem_ownEntities (by simp))).append tail
    · rw [if_neg eq]
      exact Guarded.exchange (a := [c]) h tail
        fun body chars start => prefix_attributeValue chars start

/-- Markup free text in an attribute is a value of one. -/
theorem isAttributeValue_attributeValue {text : Text} (h : Escaped text) :
    IsAttributeValue (attributeValue text) := by
  have entity : '<' ∉ "&quot;".toList ∧ '>' ∉ "&quot;".toList ∧ '"' ∉ "&quot;".toList := by
    decide
  refine ⟨⟨guarded_attributeValue h.guarded, fun mem => ?_, fun mem => ?_⟩, fun mem => ?_⟩
  · rcases mem_attributeValue mem with inside | ⟨mem, -⟩
    · exact entity.1 inside
    · exact h.no_opening mem
  · rcases mem_attributeValue mem with inside | ⟨mem, -⟩
    · exact entity.2.1 inside
    · exact h.no_closing mem
  · rcases mem_attributeValue mem with inside | ⟨-, other⟩
    · exact entity.2.2 inside
    · exact other rfl

end Document

end ManPage
