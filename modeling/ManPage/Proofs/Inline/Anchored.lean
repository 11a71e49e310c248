import Mathlib.Data.List.DropRight
import ManPage.Proofs.Inline.Grammar
import ManPage.Proofs.Inline.Recovery

/-! What linking does to a text, said by the grammar of addresses alone: from left to right each
address that is the longest at its position becomes an anchor, unless it is exempt, and where no
address begins a character stays. -/

namespace ManPage.Inline

open Text Markup

variable {address text html : Text}

/-! ### Exempt addresses -/

/-- An address that is that of the namespace of HTML up to its scheme, the case of its letters and
slashes at its end. -/
def IsExempt (address : Text) : Prop :=
  ∃ scheme ∈ schemes, ∃ place slashes, address = scheme ++ (place ++ slashes) ∧
    "http://".toList ++ lower place = namespaceAddress ∧ ∀ c ∈ slashes, c = '/'

/-- The host and path of an address, with what stands in front of them, behind its scheme. -/
theorem hostPath_append {scheme : Text} (known : scheme ∈ schemes) (rest : Text) :
    hostPath (scheme ++ rest) = lower (rest.rdropWhile (· == '/')) := by
  have behind : schemes.findSome? (after? · (scheme ++ rest)) = some rest := by
    simp only [schemes, List.mem_cons, List.not_mem_nil, or_false] at known
    rcases known with rfl | rfl
    · rfl
    · rfl
  rw [hostPath, behind, Option.getD_some]
  rfl

theorem namespaceAddress_eq : namespaceAddress = "http://".toList ++ hostPath namespaceAddress := by
  decide

theorem rdropWhile_append_of_forall {place slashes : Text} (slash : ∀ c ∈ slashes, c = '/')
    (ends : '/' ∉ place.getLast?) : (place ++ slashes).rdropWhile (· == '/') = place := by
  induction slashes using List.reverseRecOn with
  | nil =>
    rw [List.append_nil, List.rdropWhile_eq_self_iff]
    intro nonempty last
    refine ends ?_
    rw [List.getLast?_eq_some_getLast nonempty, ← beq_iff_eq.mp last]
    rfl
  | append_singleton slashes c ih =>
    obtain rfl := slash c (by simp)
    rw [← List.append_assoc, List.rdropWhile_concat_pos _ _ _ rfl]
    exact ih fun d mem => slash d (List.mem_append_left _ mem)

theorem isExempt_iff (mem : address ∈ addresses) : isExempt address ↔ IsExempt address := by
  obtain ⟨scheme, known, rest, -, rfl⟩ := Language.mem_mul.mp mem
  rw [isExempt, beq_iff_eq, hostPath_append known]
  constructor
  · intro same
    refine ⟨scheme, known, rest.rdropWhile (· == '/'), rest.rtakeWhile (· == '/'), ?_, ?_, ?_⟩
    · rw [List.rdropWhile_append_rtakeWhile]
    · rw [same, ← namespaceAddress_eq]
    · exact fun c inside => by simpa using List.mem_rtakeWhile_imp inside
  · rintro ⟨scheme', known', place, slashes, eq, same, slash⟩
    have place_eq : lower place = hostPath namespaceAddress := by
      rw [namespaceAddress_eq] at same
      exact List.append_cancel_left same
    have ends : '/' ∉ place.getLast? := by
      intro last
      have lowered : (lower place).getLast? = some '/' := by
        rw [lower, List.getLast?_map, Option.mem_def.mp last]
        rfl
      rw [place_eq] at lowered
      revert lowered
      decide
    have found := find?_prefix distinct_words.2 known (List.prefix_append scheme rest)
    have found' :=
      find?_prefix distinct_words.2 known' (List.prefix_append scheme' (place ++ slashes))
    rw [← eq, found] at found'
    cases found'
    rw [List.append_cancel_left eq, rdropWhile_append_of_forall slash ends, place_eq]

/-! ### Linked texts -/

/-- `html` is `text` with an anchor for each address that is the longest one at its position and is
not exempt, and no other change. Outside of these addresses none begins. -/
inductive Anchored : Text → Text → Prop
  | nil : Anchored [] []
  | char {c : Char} {text html : Text} (outside : ∀ address ∈ addresses, ¬address <+: c :: text)
      (rest : Anchored text html) : Anchored (c :: text) (c :: html)
  | exempt {address text html : Text} (longest : IsLongest address (address ++ text))
      (exempt : IsExempt address) (rest : Anchored text html) :
      Anchored (address ++ text) (address ++ html)
  | link {address text html : Text} (longest : IsLongest address (address ++ text))
      (other : ¬IsExempt address) (rest : Anchored text html) :
      Anchored (address ++ text)
        ("<a href=\"".toList ++ address ++ "\">".toList ++ address ++ "</a>".toList ++ html)

theorem link_cons_of_outside {c : Char} (outside : ∀ address ∈ addresses, ¬address <+: c :: text) :
    link (c :: text) = c :: link text := by
  have silent : linkAt (c :: text) = none := by
    rw [linkAt, addressAt_eq_none_iff.mpr outside, Option.map_none]
  rw [link, substitute_of_none silent, link]

theorem link_of_addressAt {width : Nat} (found : addressAt text = some (address, width)) :
    link text = (if isExempt address then address else anchor address) ++
      link (text.drop width) := by
  obtain ⟨-, positive, begins, -⟩ := addressAt_eq_some found
  obtain ⟨behind, rfl⟩ := begins
  obtain ⟨n, rfl⟩ := Nat.exists_eq_succ_of_ne_zero positive.ne'
  have hit : linkAt ('h' :: 't' :: behind) =
      some (if isExempt address then address else anchor address, n + 1) := by
    rw [linkAt, show addressAt ('h' :: 't' :: behind) = _ from found, Option.map_some]
  exact substitute_of_some hit

theorem link_append_of_isLongest (longest : IsLongest address (address ++ text)) :
    link (address ++ text) =
      (if isExempt address then address else anchor address) ++ link text := by
  obtain ⟨⟨found, width⟩, answer⟩ :=
    Option.isSome_iff_exists.mp (isSome_addressAt longest.mem longest.start)
  obtain ⟨same, taken⟩ := isLongest_of_addressAt answer
  obtain rfl := longest.unique same
  have split := List.take_append_drop width (address ++ text)
  rw [← taken, List.append_cancel_left_eq] at split
  rw [link_of_addressAt answer, split]

/-- The anchor of an address shows it and leads to it, as it is written. -/
theorem anchor_of_isLongest (longest : IsLongest address text) : anchor address =
    "<a href=\"".toList ++ address ++ "\">".toList ++ address ++ "</a>".toList := by
  obtain ⟨⟨found, width⟩, answer⟩ :=
    Option.isSome_iff_exists.mp (isSome_addressAt longest.mem longest.start)
  have chars := (addressAt_eq_some answer).2.2.2
  rw [← longest.unique (isLongest_of_addressAt answer).1] at chars
  unfold anchor
  rw [encodeAttribute_eq_self chars]

/-- Induction over the addresses of a text and the characters outside of them. -/
theorem address_induction {motive : Text → Prop} (nil : motive [])
    (char : ∀ c rest, (∀ address ∈ addresses, ¬address <+: c :: rest) → motive rest →
      motive (c :: rest))
    (address : ∀ address rest, IsLongest address (address ++ rest) → motive rest →
      motive (address ++ rest))
    (text : Text) : motive text := by
  induction hn : text.length using Nat.strongRecOn generalizing text with
  | ind n ih =>
    subst hn
    match text with
    | [] => exact nil
    | c :: rest =>
      match answer : addressAt (c :: rest) with
      | none => exact char c rest (addressAt_eq_none_iff.mp answer) (ih _ (by simp) rest rfl)
      | some (found, width) =>
        obtain ⟨longest, taken⟩ := isLongest_of_addressAt answer
        obtain ⟨-, positive, -⟩ := addressAt_eq_some answer
        have split : found ++ (c :: rest).drop width = c :: rest := by
          rw [taken, List.take_append_drop]
        have shorter : ((c :: rest).drop width).length < (c :: rest).length := by
          rw [List.length_drop, List.length_cons]
          omega
        rw [← split] at longest ⊢
        exact address found _ longest (ih _ shorter _ rfl)

theorem anchored_link (text : Text) : Anchored text (link text) := by
  induction text using address_induction with
  | nil => exact .nil
  | char c rest outside ih =>
    rw [link_cons_of_outside outside]
    exact .char outside ih
  | address address rest longest ih =>
    rw [link_append_of_isLongest longest]
    by_cases exempt : isExempt address
    · rw [if_pos exempt]
      exact ih.exempt longest ((isExempt_iff longest.mem).mp exempt)
    · rw [if_neg exempt, anchor_of_isLongest longest]
      exact ih.link longest fun known => exempt ((isExempt_iff longest.mem).mpr known)

theorem Anchored.link_eq (anchored : Anchored text html) : Inline.link text = html := by
  induction anchored with
  | nil => rfl
  | char outside rest ih => rw [link_cons_of_outside outside, ih]
  | exempt longest exempt rest ih =>
    rw [link_append_of_isLongest longest, if_pos ((isExempt_iff longest.mem).mpr exempt), ih]
  | link longest other rest ih =>
    rw [link_append_of_isLongest longest, if_neg fun exempt =>
      other ((isExempt_iff longest.mem).mp exempt), anchor_of_isLongest longest, ih]

/-- Linking makes an anchor of each address that is the longest at its position and not exempt, and
changes nothing else; and in a line of text it adds tags and nothing else. -/
theorem link_addresses (text : Text) : (∀ html, Anchored text html ↔ link text = html) ∧
    stripTags (link (render text)) = stripTags (render text) := by
  refine ⟨fun html => ⟨Anchored.link_eq, ?_⟩, stripTags_renderLine text⟩
  rintro rfl
  exact anchored_link text

end ManPage.Inline
