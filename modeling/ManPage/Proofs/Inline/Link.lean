import ManPage.Inline.Link
import ManPage.Proofs.Inline.Font

/-! Links in HTML. An address is made of characters that no tag and no entity begins with, and no
tag of a font and no entity holds the start of an address, so linking changes nothing but stretches
of single characters, each of which becomes an anchor. -/

namespace ManPage.Inline

open Text Markup

def isAddressChar (c : Char) : Bool :=
  isSegmentChar c || c == '/' || c == '.' || c == ':'

/-! ### The characters of an address -/

theorem mem_take_runWidth (p separator : Char → Bool) (text : Text) :
    ∀ c ∈ text.take (runWidth p separator text), p c ∨ separator c := by
  induction text with
  | nil => simp
  | cons c rest ih =>
    unfold runWidth
    split
    · rename_i hc
      simp only [Bool.or_eq_true, Bool.and_eq_true] at hc
      intro d hd
      rw [List.take_succ_cons, List.mem_cons] at hd
      rcases hd with rfl | hd
      · exact hc.imp_right And.left
      · exact ih d hd
    · simp

theorem isAddressChar_of_isLabelChar {c : Char} (h : isLabelChar c) : isAddressChar c := by
  simp only [isLabelChar, Bool.or_eq_true, beq_iff_eq] at h
  rcases h with h | rfl
  · simp [isAddressChar, isSegmentChar, h]
  · rfl

theorem mem_take_hostWidth (text : Text) : ∀ c ∈ text.take (hostWidth text), isAddressChar c := by
  unfold hostWidth
  split
  · intro c hc
    rcases mem_take_runWidth _ _ _ c hc with h | h
    · exact isAddressChar_of_isLabelChar h
    · simp [isAddressChar, h]
  · simp

theorem mem_take_portWidth (text : Text) : ∀ c ∈ text.take (portWidth text), isAddressChar c := by
  unfold portWidth
  split
  · rename_i rest
    dsimp only
    split
    · simp
    · intro c hc
      rw [List.take_succ_cons, List.mem_cons] at hc
      rcases hc with rfl | hc
      · rfl
      · rw [← List.prefix_iff_eq_take.mp (List.takeWhile_prefix _)] at hc
        have digit := List.all_takeWhile (p := Char.isDigit) (l := rest)
        simp only [List.all_eq_true] at digit
        simp [isAddressChar, isSegmentChar, Char.isAlphanum, digit c hc]
  · simp

theorem mem_take_pathWidth (text : Text) : ∀ c ∈ text.take (pathWidth text), isAddressChar c := by
  unfold pathWidth
  split
  · intro c hc
    rcases mem_take_runWidth _ _ _ c hc with h | h
    · simp [isAddressChar, h]
    · simp only [Bool.or_eq_true] at h
      rcases h with h | h <;> simp [isAddressChar, h]
  · simp

theorem mem_take_endingWidth (text : Text) :
    ∀ c ∈ text.take (endingWidth text), isAddressChar c := by
  have chars : ∀ ending ∈ endings, ending.all isAddressChar := by decide
  unfold endingWidth
  cases found : endings.find? (·.isPrefixOf text) with
  | none => simp
  | some ending =>
    have start : ending <+: text := by simpa using List.find?_some found
    rw [Option.getD_some, ← List.prefix_iff_eq_take.mp start]
    exact List.all_eq_true.mp (chars ending (List.mem_of_find?_eq_some found))

theorem mem_take_add {p : Char → Prop} {text : Text} {first second : Nat}
    (hf : ∀ c ∈ text.take first, p c) (hs : ∀ c ∈ (text.drop first).take second, p c) :
    ∀ c ∈ text.take (first + second), p c := by
  intro c hc
  rw [List.take_add, List.mem_append] at hc
  exact hc.elim (hf c) (hs c)

theorem mem_take_addressWidth (text : Text) :
    ∀ c ∈ text.take (addressWidth text), isAddressChar c := by
  unfold addressWidth
  dsimp only
  split
  · simp
  · exact mem_take_add (mem_take_add (mem_take_add (mem_take_hostWidth _) (mem_take_portWidth _))
      (mem_take_pathWidth _)) (mem_take_endingWidth _)

/-- What `addressAt` finds: a stretch of address characters that begins with a scheme. -/
theorem addressAt_eq_some {text address : Text} {width : Nat}
    (h : addressAt text = some (address, width)) :
    address = text.take width ∧ 0 < width ∧ ['h', 't'] <+: text ∧
      ∀ c ∈ address, isAddressChar c := by
  simp only [addressAt, Option.bind_eq_bind, Option.bind_eq_some_iff] at h
  obtain ⟨scheme, found, h⟩ := h
  split at h
  · simp at h
  · rename_i positive
    simp only [Option.some.injEq, Prod.mk.injEq] at h
    obtain ⟨rfl, rfl⟩ := h
    have start : scheme <+: text := by simpa using List.find?_some found
    have known : ∀ scheme ∈ schemes, ['h', 't'] <+: scheme ∧ scheme.all isAddressChar := by
      decide
    obtain ⟨begins, chars⟩ := known scheme (List.mem_of_find?_eq_some found)
    refine ⟨rfl, by omega, begins.trans start, mem_take_add ?_ (mem_take_addressWidth _)⟩
    rw [← List.prefix_iff_eq_take.mp start]
    exact List.all_eq_true.mp chars

theorem isAttributeValue_of_isAddressChar {address : Text} (h : ∀ c ∈ address, isAddressChar c) :
    IsAttributeValue address := by
  have ne {c d : Char} (hc : c ∈ address) (hd : isAddressChar d = false) : c ≠ d := by
    rintro rfl
    simp [h c hc] at hd
  have plain : ∀ c ∈ address, isPlain c := by
    intro c hc
    have opening : c ≠ '<' := ne hc rfl
    have closing : c ≠ '>' := ne hc rfl
    have ampersand : c ≠ '&' := ne hc rfl
    simp [isPlain, opening, closing, ampersand]
  exact ⟨escaped_of_plain (List.all_eq_true.mpr plain),
    fun isQuote => ne isQuote rfl rfl⟩

/-! ### Where no address begins -/

theorem linkAt_eq_none {text : Text} (h : ¬['h', 't'] <+: text) : linkAt text = none := by
  unfold linkAt
  cases found : addressAt text with
  | none => rfl
  | some match_ => exact absurd (addressAt_eq_some found).2.2.1 h

/-- A text in which no scheme begins: where it holds an `h`, a semicolon follows. -/
def holdsNoScheme : Text → Bool
  | [] => true
  | c :: rest => (c != 'h' || rest.head? == some ';') && holdsNoScheme rest

theorem no_scheme {c : Char} {s : Text} (h : holdsNoScheme (c :: s)) (rest : Text) :
    ¬['h', 't'] <+: c :: s ++ rest := by
  intro start
  cases s with
  | nil =>
    simp only [holdsNoScheme, List.head?_nil, Bool.and_eq_true, Bool.or_eq_true, bne_iff_ne] at h
    obtain ⟨eq, -⟩ := List.cons_prefix_cons.mp start
    simp [← eq] at h
  | cons d s =>
    simp only [holdsNoScheme, List.head?_cons, Bool.and_eq_true, Bool.or_eq_true, bne_iff_ne] at h
    obtain ⟨eq, start⟩ := List.cons_prefix_cons.mp start
    obtain ⟨eq', -⟩ := List.cons_prefix_cons.mp start
    simp [← eq, ← eq'] at h

theorem holdsNoScheme_of_suffix {kept s : Text} (h : holdsNoScheme kept) (suffix : s <:+ kept) :
    holdsNoScheme s := by
  induction kept with
  | nil => rwa [List.suffix_nil.mp suffix]
  | cons c kept ih =>
    rcases List.suffix_cons_iff.mp suffix with rfl | suffix
    · exact h
    · simp only [holdsNoScheme, Bool.and_eq_true] at h
      exact ih h.2 suffix

theorem linkAt_of_holdsNoScheme {kept : Text} (h : holdsNoScheme kept) (rest : Text) (c : Char)
    (s : Text) (suffix : c :: s <:+ kept) : linkAt (c :: s ++ rest) = none :=
  linkAt_eq_none (no_scheme (holdsNoScheme_of_suffix h suffix) rest)

theorem holdsNoScheme_ownEntities : ∀ entity ∈ ownEntities, holdsNoScheme entity := by
  decide

theorem holdsNoScheme_fontTags : ∀ inside ∈ Font.tags, holdsNoScheme ('<' :: inside ++ ['>']) := by
  decide

/-! ### Linked items -/

/-- `html` is `items` one after another, in which some stretches of single address characters are
anchors. -/
inductive Linked : List Text → Text → Prop
  | nil : Linked [] []
  | keep (item : Text) {items : List Text} {html : Text} (rest : Linked items html) :
      Linked (item :: items) (item ++ html)
  | link {address : Text} (chars : ∀ c ∈ address, isAddressChar c) {items : List Text}
      {html : Text} (rest : Linked items html) :
      Linked (address.map ([·]) ++ items) (anchor address ++ html)

theorem flatten_chars (address : Text) (items : List Text) :
    (address.map ([·]) ++ items).flatten = address ++ items.flatten := by
  rw [List.flatten_append, ← List.flatMap_def, List.flatMap_singleton']

theorem Linked.keepAll {items : List Text} {html : Text} (address : Text) (h : Linked items html) :
    Linked (address.map ([·]) ++ items) (address ++ html) := by
  induction address with
  | nil => exact h
  | cons c address ih => exact .keep [c] ih

/-- The items that a stretch of address characters begins with are its characters. -/
theorem items_of_address {items : List Text} {address rest : Text}
    (fits : ∀ item ∈ items, IsItem item) (chars : ∀ c ∈ address, isAddressChar c)
    (h : items.flatten = address ++ rest) :
    ∃ items', items = address.map ([·]) ++ items' ∧ items'.flatten = rest := by
  induction address generalizing items with
  | nil => exact ⟨items, rfl, h⟩
  | cons c address ih =>
    match items with
    | [] => simp at h
    | item :: items =>
      have hc := chars c (by simp)
      rw [List.flatten_cons] at h
      cases fits item (by simp) with
      | char =>
        rw [List.singleton_append, List.cons_append, List.cons.injEq] at h
        obtain ⟨rfl, h⟩ := h
        obtain ⟨items', rfl, left⟩ := ih (fun item hi => fits item (List.mem_cons_of_mem _ hi))
          (fun c hc => chars c (List.mem_cons_of_mem _ hc)) h
        exact ⟨items', rfl, left⟩
      | entity own =>
        obtain ⟨body, rfl, -⟩ := ownEntities_eq_cons own
        rw [← (List.cons.inj h).1] at hc
        cases hc
      | tag =>
        rw [← (List.cons.inj h).1] at hc
        cases hc

theorem not_mem_of_isAddressChar {address : Text} (h : ∀ c ∈ address, isAddressChar c) :
    '<' ∉ address :=
  (isAttributeValue_of_isAddressChar h).escaped.no_opening

/-- Linking at an address, which is as many items as it has characters. -/
theorem linked_address {items : List Text} (fits : ∀ item ∈ items, IsItem item)
    {c : Char} {rest address : Text} {width : Nat} (text : items.flatten = c :: rest)
    (found : addressAt (c :: rest) = some (address, width))
    (ih : ∀ items', items'.length < items.length → (∀ item ∈ items', item ∈ items) →
      tags items'.flatten = tags items.flatten → Linked items' (link items'.flatten)) :
    Linked items (link (c :: rest)) := by
  obtain ⟨eq, positive, -, chars⟩ := addressAt_eq_some found
  obtain ⟨n, rfl⟩ : ∃ n, width = n + 1 := ⟨width - 1, by omega⟩
  have whole : items.flatten = address ++ rest.drop n := by
    rw [text, eq, List.take_succ_cons, List.cons_append, List.take_append_drop]
  obtain ⟨items', rfl, left⟩ := items_of_address fits chars whole
  have shorter : items'.length < (address.map ([·]) ++ items').length := by
    simp only [eq, List.length_append, List.length_map, List.take_succ_cons, List.length_cons]
    omega
  have tail := ih items' shorter (fun item hi => List.mem_append_right _ hi) (by
    rw [whole, tags_append_of_not_mem (not_mem_of_isAddressChar chars), left])
  have hit : linkAt (c :: rest) =
      some (if isExempt address then address else anchor address, n + 1) := by
    rw [linkAt, found, Option.map_some]
  rw [link, substitute_of_some hit, Nat.add_sub_cancel, ← left]
  split
  · exact tail.keepAll address
  · exact .link chars tail

/-- Linking text whose tags are those of fonts links its items. -/
theorem linked_link {items : List Text} (fits : ∀ item ∈ items, IsItem item)
    (fonts : tags items.flatten ⊆ Font.tags) : Linked items (link items.flatten) := by
  induction hn : items.length using Nat.strongRecOn generalizing items with
  | ind n ih =>
    subst hn
    match items, fits, fonts with
    | [], _, _ => exact .nil
    | item :: items, fits, fonts =>
      have head := fits item (by simp)
      have split : tags (item :: items).flatten = tags item ++ tags items.flatten :=
        head.tags_append _
      obtain ⟨headFonts, tailFonts⟩ := List.append_subset.mp (split ▸ fonts)
      have tail := ih items.length (by simp) (fun item hi => fits item (List.mem_cons_of_mem _ hi))
        tailFonts rfl
      rw [List.flatten_cons]
      have kept (h : holdsNoScheme item) :
          Linked (item :: items) (link (item ++ items.flatten)) := by
        rw [link, substitute_append (linkAt_of_holdsNoScheme h _)]
        exact .keep item tail
      cases head with
      | entity own => exact kept (holdsNoScheme_ownEntities _ own)
      | tag tag =>
        rw [tags_tag_append tag []] at headFonts
        exact kept (holdsNoScheme_fontTags _ (headFonts (by simp)))
      | @char c opening closing ampersand =>
        cases found : addressAt (c :: items.flatten) with
        | none =>
          rw [List.singleton_append, link, substitute_of_none (by simp [linkAt, found])]
          exact .keep [c] tail
        | some match_ =>
          refine linked_address fits rfl found fun items' shorter members sameTags => ?_
          exact ih _ shorter (fun item hi => fits item (members item hi)) (sameTags ▸ fonts) rfl

/-! ### Nesting -/

theorem nested?_link (rest : Text) : nested? ('a' :: ' ' :: rest) = some (.opening .a) := by
  have name : Tag.ofInside? ('a' :: ' ' :: rest) =
      (Element.ofName? ['a']).map Tag.opening := by
    simp [Tag.ofInside?]
  have known : Element.ofName? ['a'] = some .a := rfl
  rw [nested?, name, known]
  rfl

/-- No character of an address is written as an entity in an attribute. -/
theorem encodeAttribute_eq_self {address : Text} (chars : ∀ c ∈ address, isAddressChar c) :
    encodeAttribute address = address := by
  have same : ∀ c ∈ address, encodeAttributeChar c = [c] := by
    intro c mem
    have allowed := chars c mem
    unfold encodeAttributeChar
    split
    all_goals first | rfl | cases allowed
  rw [encodeAttribute, List.flatMap_def, List.map_congr_left same, ← List.flatMap_def,
    List.flatMap_singleton']

theorem anchor_eq {address : Text} (chars : ∀ c ∈ address, isAddressChar c) : anchor address =
    '<' :: ("a href=\"".toList ++ address ++ ['"']) ++ ['>'] ++ address ++ Element.a.stop := by
  have start : "<a href=\"".toList = '<' :: "a href=\"".toList := rfl
  have middle : "\">".toList = ['"'] ++ ['>'] := rfl
  have stop : "</a>".toList = Element.a.stop := rfl
  unfold anchor
  rw [encodeAttribute_eq_self chars]
  simp only [start, middle, stop, List.cons_append, List.append_assoc]

theorem nests_anchorStart {value : Text} (h : IsAttributeValue value) {opened : List Element}
    (outside : .a ∉ opened) :
    Nests opened ('<' :: ("a href=\"".toList ++ value ++ ['"']) ++ ['>']) (.a :: opened) := by
  have start : "a href=\"".toList = 'a' :: ' ' :: "href=\"".toList := rfl
  have form : "a href=\"".toList ++ value ++ ['"'] =
      'a' :: ' ' :: ("href=\"".toList ++ value ++ ['"']) := by
    simp only [start, List.cons_append]
  have tag := IsTag.link h
  rw [form] at tag ⊢
  refine Nests.tag tag ?_
  rw [nested?_link]
  simp [nest?, Tag.walk?, Element.fits, outside]

theorem nests_anchor {address : Text} (chars : ∀ c ∈ address, isAddressChar c)
    {opened : List Element} (outside : .a ∉ opened) : Nests opened (anchor address) opened := by
  have value := isAttributeValue_of_isAddressChar chars
  rw [anchor_eq chars]
  exact ((nests_anchorStart value outside).append (.escaped value.escaped)).append (.stop rfl)

theorem nested?_fontTags : ∀ inside ∈ Font.tags,
    headingId? inside = none ∧ ∀ tag ∈ nested? inside, tag.element ≠ .a := by
  decide

theorem Linked.nests {items : List Text} {html : Text} (h : Linked items html)
    (fits : ∀ item ∈ items, IsItem item) (fonts : tags items.flatten ⊆ Font.tags)
    {opened after : List Element} (outside : .a ∉ opened)
    (walk : nest? opened (nestedTags items.flatten) = some after) : Nests opened html after := by
  induction h generalizing opened with
  | nil => exact ⟨isHtml_nil, walk, rfl⟩
  | @keep item items html rest ih =>
    have head := fits item (by simp)
    have split : tags (item :: items).flatten = tags item ++ tags items.flatten :=
      head.tags_append _
    obtain ⟨headFonts, tailFonts⟩ := List.append_subset.mp (split ▸ fonts)
    rw [List.flatten_cons, head.isHtml.nestedTags_append, nest?_append,
      Option.bind_eq_some_iff] at walk
    obtain ⟨between, first, second⟩ := walk
    have headings : headingIds item = [] :=
      List.filterMap_eq_nil_iff.mpr fun inside hi => (nested?_fontTags inside (headFonts hi)).1
    refine Nests.append ⟨head.isHtml, first, headings⟩ (ih (fun item hi => fits item (by simp [hi]))
      tailFonts (nest?_not_mem (fun tag ht => ?_) first outside) second)
    obtain ⟨inside, hi, ht⟩ := List.mem_filterMap.mp ht
    exact (nested?_fontTags inside (headFonts hi)).2 tag ht
  | @link address chars items html rest ih =>
    have noTags := not_mem_of_isAddressChar chars
    rw [flatten_chars, tags_append_of_not_mem noTags] at fonts
    rw [flatten_chars, nestedTags, tags_append_of_not_mem noTags] at walk
    exact (nests_anchor chars outside).append
      (ih (fun item hi => fits item (List.mem_append_right _ hi)) fonts outside walk)

/-- A line of text is HTML whose tags close what they open, outside of anchors. -/
theorem nests_renderLine (text : Text) {opened : List Element} (outside : .a ∉ opened) :
    Nests opened (renderLine text) opened := by
  have rendered := neutral_render text opened
  obtain ⟨items, eq, fits⟩ := rendered.isHtml
  have fonts : tags items.flatten ⊆ Font.tags := eq ▸ tags_expandFonts_subset (escaped_escape text)
  unfold renderLine
  rw [eq]
  exact (linked_link fits fonts).nests fits fonts outside (eq ▸ rendered.walk)

/-! ### The tags of a line -/

/-- A tag in a line of text, without its brackets: of a font, or of an anchor. -/
inductive IsTextTag : Text → Prop
  | font {inside : Text} (known : inside ∈ Font.tags) : IsTextTag inside
  | link (address : Text) : IsTextTag ("a href=\"".toList ++ address ++ ['"'])
  | stop : IsTextTag "/a".toList

theorem tags_anchor {address : Text} (chars : ∀ c ∈ address, isAddressChar c) :
    tags (anchor address) = ["a href=\"".toList ++ address ++ ['"'], "/a".toList] := by
  have link : IsTag ("a href=\"".toList ++ address ++ ['"']) :=
    .link (isAttributeValue_of_isAddressChar chars)
  have split : anchor address = '<' :: ("a href=\"".toList ++ address ++ ['"']) ++
      '>' :: (address ++ Element.a.stop) := by
    rw [anchor_eq chars]
    simp only [List.append_assoc, List.cons_append, List.nil_append]
  rw [split, tags_tag_append link, tags_append_of_not_mem (not_mem_of_isAddressChar chars)]
  rfl

theorem Linked.isTextTag {items : List Text} {html : Text} (h : Linked items html)
    (fits : ∀ item ∈ items, IsItem item) (fonts : tags items.flatten ⊆ Font.tags) :
    ∀ inside ∈ tags html, IsTextTag inside := by
  induction h with
  | nil => exact fun _ mem => absurd mem List.not_mem_nil
  | @keep item items html rest ih =>
    have head := fits item (by simp)
    have split : tags (item :: items).flatten = tags item ++ tags items.flatten :=
      head.tags_append _
    obtain ⟨headFonts, tailFonts⟩ := List.append_subset.mp (split ▸ fonts)
    rw [head.tags_append]
    refine List.forall_mem_append.mpr ⟨fun inside mem => .font (headFonts mem), ?_⟩
    exact ih (fun item mem => fits item (List.mem_cons_of_mem _ mem)) tailFonts
  | @link address chars items html rest ih =>
    rw [flatten_chars, tags_append_of_not_mem (not_mem_of_isAddressChar chars)] at fonts
    have isHtml : IsHtml (anchor address) :=
      (nests_anchor chars (List.not_mem_nil (a := Element.a))).isHtml
    rw [isHtml.tags_append, tags_anchor chars]
    refine List.forall_mem_append.mpr ⟨?_, ih (fun item mem => fits item ?_) fonts⟩
    · simpa using ⟨.link address, .stop⟩
    · exact List.mem_append_right _ mem

/-- HTML whose tags are those of a line of text. -/
structure IsPhrase (html : Text) : Prop where
  isHtml : IsHtml html
  inside : ∀ inside ∈ tags html, IsTextTag inside

namespace IsPhrase

theorem nil : IsPhrase [] :=
  ⟨isHtml_nil, fun _ mem => absurd mem List.not_mem_nil⟩

theorem append {first second : Text} (hf : IsPhrase first) (hs : IsPhrase second) :
    IsPhrase (first ++ second) := by
  refine ⟨hf.isHtml.append hs.isHtml, ?_⟩
  rw [hf.isHtml.tags_append]
  exact List.forall_mem_append.mpr ⟨hf.inside, hs.inside⟩

theorem wrap {html : Text} (h : IsPhrase html) (font : Font) : IsPhrase (font.wrap html) := by
  have fonts {text : Text} (isHtml : IsHtml text) (fonts : tags text ⊆ Font.tags) :
      IsPhrase text :=
    ⟨isHtml, fun inside mem => .font (fonts mem)⟩
  have opening : IsPhrase font.opening := by
    refine fonts ?_ (by cases font <;> decide)
    rw [font.opening_eq]
    exact isHtml_flatMap fun element _ => isHtml_tag (.opening element)
  have closing : IsPhrase font.closing := by
    refine fonts ?_ (by cases font <;> decide)
    rw [font.closing_eq]
    exact isHtml_flatMap fun element _ => isHtml_tag (.closing element)
  unfold Font.wrap
  split
  · exact nil
  · exact (opening.append h).append closing

end IsPhrase

theorem isPhrase_render (text : Text) : IsPhrase (render text) := by
  refine ⟨(neutral_render text []).isHtml, fun inside mem => .font ?_⟩
  exact tags_expandFonts_subset (escaped_escape text) mem

theorem isPhrase_alternate (first second : Font) (args : List Text) :
    IsPhrase (alternate first second args) := by
  induction args generalizing first second with
  | nil => exact .nil
  | cons arg args ih => exact ((isPhrase_render arg).wrap first).append (ih second first)

theorem isPhrase_renderLine (text : Text) : IsPhrase (renderLine text) := by
  obtain ⟨items, eq, fits⟩ := (neutral_render text []).isHtml
  have fonts : tags items.flatten ⊆ Font.tags := eq ▸ tags_expandFonts_subset (escaped_escape text)
  refine ⟨(nests_renderLine text (List.not_mem_nil (a := Element.a))).isHtml, ?_⟩
  unfold renderLine
  rw [eq]
  exact (linked_link fits fonts).isTextTag fits fonts

end ManPage.Inline
