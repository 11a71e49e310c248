import ManPage.Proofs.Document.Entries

/-! The end of a list. While a list is open behind its entries, each line that ends it puts out the
markup that closes the list in front of its own output, and does to the document what it does where
there is no list; so does the end of the document. -/

namespace ManPage

open Markup Inline

namespace Document

open Effect

variable {options : Options} {state : State} {input : Input} {left : List RawLine}
  {region : Region} {list item : Element} {line : Text}

theorem listTags_renderHeading (level : HeadingLevel) {identifier html : Text}
    (escaped : Escaped identifier) (phrase : IsPhrase html) :
    listTags (renderHeading level identifier html) = [] := by
  have value := isAttributeValue_attributeValue escaped
  have link := isAttributeValue_fragment escaped
  have heading : IsTag (headingInside level (attributeValue identifier)) := .heading level value
  have anchor := isHtml_tag (.link link)
  have start : listTags ('<' :: headingInside level (attributeValue identifier) ++ ['>']) = [] := by
    rw [listTags_tag heading, headingInside_eq, nested?_heading]
    cases level <;> rfl
  have form : "a href=\"".toList ++ '#' :: attributeValue identifier ++ ['"'] =
      'a' :: ' ' :: ("href=\"".toList ++ '#' :: attributeValue identifier ++ ['"']) := rfl
  have open_ : listTags ('<' :: ("a href=\"".toList ++ '#' :: attributeValue identifier ++ ['"']) ++
      ['>']) = [] := by
    rw [listTags_tag (.link link), form, nested?_link]
    rfl
  have stop : listTags Element.a.stop = [] := rfl
  have stop' : listTags level.element.stop = [] := by cases level <;> rfl
  rw [renderHeading_eq, (isHtml_tag heading).listTags_append,
    ((anchor.append phrase.isHtml).append (isHtml_stop .a)).listTags_append,
    (anchor.append phrase.isHtml).listTags_append, anchor.listTags_append, start, open_,
    listTags_phrase phrase, stop, stop']
  rfl

/-! ### The end of a list -/

/-- A line that ends a list of `region` behind an entry: a blank line, a request for a paragraph, an
indented paragraph without a bullet, a heading that has its text, a decrease of the margin, or an
entry of another list. -/
inductive Ends (region : Region) (line : Text) : Prop
  | blank (blank : Line.classify line = .blank)
  | paragraph (asks : request? line = some .paragraph)
  | indentedParagraph {name : Text} {args : List Text}
      (makes : Line.classify line = .request name args)
      (asks : Request.ofName? name = some .indentedParagraph)
      (plain : args.head?.any bullets.contains = false)
  | heading {name : Text} {args : List Text} {level : HeadingLevel}
      (makes : Line.classify line = .request name args)
      (asks : Request.ofName? name = some (.heading level)) (text : args ≠ [])
  | marginDecrease (asks : request? line = some .marginDecrease)
  | entry {other : Region} (begins : entryRegion? line = some other) (ne : other ≠ region)

/-- An effect that closes a list of `region`. -/
inductive Closes (region : Region) : Effect → Prop
  | paragraph : Closes region .paragraph
  | heading (level : HeadingLevel) (text : Text) : Closes region (.heading level text)
  | marginDecrease : Closes region .marginDecrease
  | entry {other : Region} {html : Text} (ne : other ≠ region) (phrase : IsPhrase html) :
      Closes region (.entry other (entryStart other) html (entryStop other))
  | fault (error : ReadError) {other : Region} (ne : other ≠ region) :
      Closes region (.fault error (some other))

theorem Ends.closes (ends : Ends region line) (input : Input) :
    Closes region (ofLine line input).1 := by
  cases ends with
  | blank blank =>
    rw [ofLine, blank]
    exact .paragraph
  | paragraph asks =>
    obtain ⟨args, eq⟩ := ofLine_of_request? asks
    rw [eq]
    exact .paragraph
  | indentedParagraph makes asks plain =>
    rw [ofLine_of_makes makes asks, ofRequest, plain]
    exact .paragraph
  | heading makes asks text =>
    rw [ofLine_of_makes makes asks, ofRequest, readText, if_neg (by simpa using text)]
    exact .heading _ _
  | marginDecrease asks =>
    obtain ⟨args, eq⟩ := ofLine_of_request? asks
    rw [eq]
    exact .marginDecrease
  | entry begins ne =>
    rw [ofLine_of_entryRegion? begins]
    rcases read : (readEntry input).outcome with ⟨error | html, rest⟩
    · exact .fault error ne
    · exact .entry ne (isPhrase_of_readEntry (congrArg Prod.fst read))

namespace Closes

variable {effect : Effect} {nesting : Nesting} {anchors : Anchors}

/-- Where the list is open, its closing markup stands in front of what the effect puts out where
there is no list. -/
theorem output (closes : Closes region effect) (isList : region ≠ .paragraph)
    (paragraph : nesting.current = .paragraph) (options : Options) (anchors : Anchors) :
    effect.output options (nesting.setCurrent region) anchors =
      (effect.output options nesting anchors).map
        fun html => some (region.closing ++ html.getD []) := by
  have current := Nesting.closeRegion_fst paragraph
  have closed : (nesting.setCurrent region).closeRegion.1 = region.closing := rfl
  cases closes with
  | paragraph =>
    rw [Effect.output, Effect.output, current, closed]
    rfl
  | heading level text =>
    dsimp only [Effect.output]
    rw [current, closed]
    rfl
  | marginDecrease =>
    dsimp only [Effect.output]
    rw [Nesting.pop_fst, Nesting.pop_fst, paragraph]
    cases region with
    | paragraph => exact absurd rfl isList
    | _ => rfl
  | entry ne phrase =>
    dsimp only [Effect.output]
    rw [Nesting.enterEntry_setCurrent ne paragraph]
    simp only [Except.map, Option.getD_some, List.append_assoc]
  | fault error ne => rfl

/-- The document behind the effect is the same as where there is no list. -/
theorem apply_eq (closes : Closes region effect) (options : Options) (place : Input)
    (state : State) :
    effect.apply options place { state with nesting := nesting.setCurrent region } =
      effect.apply options place { state with nesting } := by
  have entered (other : Region) :
      ((nesting.setCurrent region).enterEntry other).2 = (nesting.enterEntry other).2 := by
    rw [Nesting.enterEntry_snd, Nesting.enterEntry_snd]
    rfl
  have ended : (nesting.setCurrent region).closeRegion.2 = nesting.closeRegion.2 := by
    rw [Nesting.closeRegion_snd, Nesting.closeRegion_snd]
    rfl
  cases closes with
  | paragraph =>
    rw [apply_of_cause? rfl, apply_of_cause? rfl]
    simp only [Effect.nesting, ended]
  | heading level text =>
    rw [apply_of_cause? rfl, apply_of_cause? rfl]
    simp only [Effect.nesting, Effect.anchors, ended]
  | marginDecrease =>
    obtain ⟨current, outer⟩ := nesting
    cases outer <;> rfl
  | entry ne phrase =>
    rw [apply_of_cause? rfl, apply_of_cause? rfl]
    simp only [Effect.nesting, entered]
  | fault error ne =>
    rw [apply_of_cause? rfl, apply_of_cause? rfl]
    simp only [Effect.nesting, entered]

/-- What the effect puts out where there is no list closes none of its kind. -/
theorem not_closing_mem {html : Option Text} (closes : Closes region effect)
    (h : region.IsListOf list item) (paragraph : nesting.current = .paragraph)
    (ok : effect.output options nesting anchors = .ok html) :
    .closing list ∉ listTags (html.getD []) := by
  have current := Nesting.closeRegion_fst paragraph
  cases closes with
  | paragraph =>
    cases ok
    rw [Option.getD_some, current]
    exact List.not_mem_nil
  | heading level text =>
    cases ok
    rw [Option.getD_some, current, List.nil_append, listTags_renderHeading level
      (anchors.escaped_register (isPhrase_render text).isHtml) (isPhrase_render text)]
    exact List.not_mem_nil
  | marginDecrease =>
    cases ok
    rw [Nesting.pop_fst, paragraph]
    exact List.not_mem_nil
  | @entry other _ ne phrase =>
    cases ok
    rw [Option.getD_some, Nesting.enterEntry_fst paragraph,
      (listTags_entry other.isBody_opening.isHtml phrase other).2]
    exact not_closing_mem_entryTags h other
  | fault error ne => cases ok

end Closes

/-- The end of a document with an open list closes it in front of the regions around it. -/
theorem finish_eq (h : region.IsListOf list item) {nesting : Nesting}
    (inside : state.nesting = nesting.setCurrent region) : state.finish =
      (some (region.closing ++ (nesting.outer.flatMap Region.closing ++
        state.trailer.elim [] ('\n' :: ·))), { state with nesting := {}, trailer := none }) := by
  obtain ⟨c, closing, eq⟩ : ∃ c closing, region.closing = c :: closing := by
    rcases h.eq with ⟨rfl, -⟩ | ⟨rfl, -⟩
    · exact ⟨_, _, rfl⟩
    · exact ⟨_, _, rfl⟩
  have closeAll : state.nesting.closeAll =
      (region.closing ++ nesting.outer.flatMap Region.closing, {}) := by
    rw [inside]
    rfl
  rw [State.finish, closeAll, eq]
  cases state.trailer with
  | none => simp [Text.nonempty?]
  | some trailer => simp [Text.nonempty?]

/-- Entries of one kind are one list. Fed to a document in a paragraph, they put out the markup that
opens the list, and each entry with its lines of text in order, the next behind one separator;
nothing closes the list on the way. While it is open, a line that ends it puts out the markup that
closes it, once, in front of what the line puts out where there is no list, and has the same effect
on the document; so does the end of the document. -/
theorem entries_of_list (options : Options) (h : region.IsListOf list item)
    (paragraph : state.nesting.current = .paragraph) {first : Entry} {more : List Entry}
    (of : ∀ entry ∈ first :: more, entry.Of region)
    (unread : input.unread = ((first :: more).flatMap Entry.lines).map .text ++ left) :
    let lines := (first :: more).flatMap Entry.lines
    let chunks := entryChunks region region.opening (first :: more)
    let behind : State := { state with nesting := state.nesting.setCurrent region }
    Reaches options state input chunks behind (input.past lines.length left) ∧
    listTags (joinLines chunks) = .opening list ::
      (entryTags region ++ more.flatMap fun _ => .closing item :: entryTags region) ∧
    ¬region.closing <:+: joinLines chunks ∧
    ∀ later : State, later.nesting = behind.nesting →
      (∀ line place, Ends region line →
        let closed := step options later line place
        let own := step options { later with nesting := state.nesting } line place
        closed.output = own.output.map (fun html => some (region.closing ++ html.getD [])) ∧
        closed.state = own.state ∧ closed.input = own.input ∧
        ∀ html, own.output = .ok html → ¬region.closing <:+: html.getD []) ∧
      later.finish = (some (region.closing ++ (state.nesting.outer.flatMap Region.closing ++
        later.trailer.elim [] ('\n' :: ·))), { later with nesting := {}, trailer := none }) := by
  intro lines chunks behind
  have isList : region ≠ .paragraph := by
    rcases h.eq with ⟨rfl, -⟩ | ⟨rfl, -⟩ <;> decide
  obtain ⟨isHtml, tags⟩ := listTags_entryChunks region.isBody_opening.isHtml region first more
  have exact_ : listTags (joinLines chunks) = .opening list ::
      (entryTags region ++ more.flatMap fun _ => .closing item :: entryTags region) := by
    rw [listTags_joinLines isHtml, tags]
    rcases h.eq with ⟨rfl, rfl, rfl⟩ | ⟨rfl, rfl, rfl⟩ <;> rfl
  have open_ : .closing list ∉ listTags (joinLines chunks) := by
    rw [exact_]
    rcases h.eq with ⟨rfl, rfl, rfl⟩ | ⟨rfl, rfl, rfl⟩ <;> simp [entryTags]
  refine ⟨reaches_entries of paragraph isList unread, exact_, h.closing_not_stands open_,
    fun later inside => ⟨fun line place ends => ?_, finish_eq h inside⟩⟩
  intro closed own
  have closes := ends.closes place
  have does := step_does options later line place
  have does' := step_does options { later with nesting := state.nesting } line place
  have same : later = { later with nesting := state.nesting.setCurrent region } := by
    rw [← show later.nesting = state.nesting.setCurrent region from inside]
  refine ⟨?_, ?_, does.input.trans does'.input.symm, fun html ok => h.closing_not_stands ?_⟩
  · rw [does.output, does'.output, same]
    exact closes.output isList paragraph options later.anchors
  · rw [does.state, does'.state, same]
    exact closes.apply_eq options place later
  · exact closes.not_closing_mem h paragraph (does'.output.symm.trans ok)

/-- Two bullets with three lines of text, and a term behind them. -/
theorem entries_of_list_bullets :
    let lines := [".IP o 2", "*one*", "a", "b", ".IP \\(bu", "two", ".TP", "x"]
    let page : Input := { name := "a.1".toList, unread := lines.map fun line => .text line.toList }
    let behind : State := { nesting := { current := .bullets } }
    let rest := page.past 6 [.text ".TP".toList, .text ['x']]
    Reaches {} {} page (["<ul><li>*one*", "a", "b", "</li><li>two"].map String.toList) behind rest ∧
      (step {} behind ".TP".toList (rest.past 1 [.text ['x']])).output =
        .ok (some "</li></ul><dl><dt>x</dt><dd>".toList) ∧
      behind.finish.1 = some "</li></ul>".toList := by
  intro lines page behind rest
  let entries : List Entry :=
    [{ request := ".IP o 2".toList, text := "*one*".toList, body := [['a'], ['b']] },
      { request := ".IP \\(bu".toList, text := "two".toList, body := [] }]
  have of : ∀ entry ∈ entries, entry.Of .bullets := by
    refine List.forall_mem_cons.mpr ⟨⟨by decide +kernel, by decide, by decide⟩, ?_⟩
    exact List.forall_mem_singleton.mpr ⟨by decide +kernel, by decide, by decide⟩
  have paragraph : ({} : State).nesting.current = .paragraph := rfl
  have unread : page.unread = (entries.flatMap Entry.lines).map .text ++ rest.unread := rfl
  obtain ⟨reaches, -, -, closes⟩ :=
    entries_of_list {} Region.isListOf_bullets paragraph of unread
  obtain ⟨ends, finish⟩ := closes behind rfl
  have begins : entryRegion? ".TP".toList = some .definitions := by decide +kernel
  have term : Ends .bullets ".TP".toList := .entry begins (by decide)
  refine ⟨reaches, ?_, congrArg Prod.fst finish⟩
  rw [(ends ".TP".toList (rest.past 1 [.text ['x']]) term).1]
  decide +kernel

end Document

end ManPage
