import ManPage.Proofs.Document.Body
import ManPage.Proofs.Document.Failure
import ManPage.Proofs.Document.Insertion
import ManPage.Proofs.Document.Margin

/-! The entries of a list. Entries of one kind that follow each other are one region: the first opens
it, each other one stands behind a separator, and what comes behind the entries closes it. -/

namespace ManPage

open Inline

namespace Markup

theorem listTags_phrase {html : Text} (h : IsPhrase html) : listTags html = [] := by
  have fonts : ∀ inside ∈ Font.tags, ∀ tag ∈ nested? inside, tag.isListPart = false := by decide
  refine List.filter_eq_nil_iff.mpr fun tag mem => ?_
  obtain ⟨inside, written, is⟩ := List.mem_filterMap.mp mem
  rw [Bool.not_eq_true]
  cases h.inside inside written with
  | font known => exact fonts inside known tag is
  | link address =>
    have form : "a href=\"".toList ++ address ++ ['"'] =
        'a' :: ' ' :: ("href=\"".toList ++ address ++ ['"']) := rfl
    rw [form, nested?_link] at is
    cases is
    rfl
  | stop =>
    cases is
    rfl

end Markup

open Markup

namespace Region

variable {region : Region} {list item : Element}

/-- The markup that closes a list holds the tag that closes its element. -/
theorem IsListOf.closing_not_stands (h : region.IsListOf list item) {html : Text}
    (open_ : .closing list ∉ listTags html) : ¬region.closing <:+: html := by
  intro stands
  obtain ⟨part, nested⟩ : list.isListPart ∧ list.isLoose = false := by
    rcases h.eq with ⟨-, rfl, -⟩ | ⟨-, rfl, -⟩ <;> decide
  have closing : region.closing = item.stop ++ list.stop := by
    rw [closing_eq, h.elements]
    exact congrArg (item.stop ++ ·) (List.append_nil _)
  have stop : list.stop <:+: html :=
    (List.suffix_append item.stop list.stop).isInfix.trans (closing ▸ stands)
  exact open_ (List.mem_filter.mpr ⟨mem_nestedTags_of_stands nested stop, part⟩)

end Region

namespace Document

open Effect

variable {options : Options} {state : State} {input rest : Input} {left : List RawLine}
  {region : Region} {list item : Element} {line start : Text}

/-! ### Entries -/

/-- An entry of a list in a page: the line that begins it, the line with its text, and lines of text
behind it. -/
structure Entry where
  request : Text
  text : Text
  body : List Text

namespace Entry

def lines (entry : Entry) : List Text :=
  entry.request :: entry.text :: entry.body

/-- The pieces that an entry puts out; its markup stands behind `start`. -/
def chunks (entry : Entry) (region : Region) (start : Text) : List Text :=
  (start ++ entryStart region ++ renderLine entry.text ++ entryStop region) ::
    entry.body.map renderLine

/-- An entry of `region`: its own line is no control line, and those behind it are not blank
either. -/
structure Of (entry : Entry) (region : Region) : Prop where
  request : entryRegion? entry.request = some region
  text : Line.isControl entry.text = false
  body : ∀ line ∈ entry.body, Line.isControl line = false ∧ Text.trim line ≠ []

end Entry

/-- The pieces that entries put out, the first behind `start` and the others behind separators. -/
def entryChunks (region : Region) : Text → List Entry → List Text
  | _, [] => []
  | start, entry :: entries =>
    entry.chunks region start ++ entryChunks region region.separator entries

theorem classify_of_text (text : Line.isControl line = false) :
    Line.classify line = if (Text.trim line).isEmpty then .blank else .text line := by
  have plain : Line.control? line = none := by
    rwa [Line.isControl, Option.isSome_eq_false_iff, Option.isNone_iff_eq_none] at text
  rw [Line.classify, plain]

theorem readEntry_text (next : input.next = (.ok (some line), rest))
    (text : Line.isControl line = false) :
    (readEntry input).outcome = (.ok (some (renderLine line)), rest) := by
  have plain : fontRequest? line = none := by
    rw [fontRequest?, classify_of_text text]
    cases (Text.trim line).isEmpty <;> rfl
  unfold readEntry
  rw [next]
  dsimp only
  rw [entryOfLine, plain]
  rfl

/-- Lines of text are put out one by one. -/
theorem reaches_texts (options : Options) (state : State) {lines : List Text}
    (texts : ∀ line ∈ lines, Line.isControl line = false ∧ Text.trim line ≠ [])
    (unread : input.unread = lines.map .text ++ left) :
    Reaches options state input (lines.map renderLine) state (input.past lines.length left) := by
  induction lines generalizing input with
  | nil =>
    rw [← show input.unread = left from unread]
    exact .here state input
  | cons line lines ih =>
    obtain ⟨text, visible⟩ := texts line List.mem_cons_self
    have effect (rest : Input) : ofLine line rest = (.html (renderLine line), rest) := by
      rw [ofLine, classify_of_text text, if_neg (by simpa using visible)]
    have first : Reaches options state input [renderLine line] _ _ :=
      reaches_of_effect (Input.next_of_cons unread) (effect _) rfl
    rw [apply_of_cause? rfl] at first
    rw [List.length_cons, Nat.add_comm, ← Input.past_past]
    exact first.trans (ih (fun other mem => texts other (List.mem_cons_of_mem _ mem)) rfl)

/-- An entry is put out in its list, which it opens unless it is open. -/
theorem Entry.Of.reaches {entry : Entry} (of : entry.Of region) (options : Options)
    (state : State) (unread : input.unread = entry.lines.map .text ++ left) :
    Reaches options state input (entry.chunks region (state.nesting.enterEntry region).1)
      { state with nesting := state.nesting.setCurrent region }
      (input.past entry.lines.length left) := by
  have unread' : input.unread =
      .text entry.request :: .text entry.text :: (entry.body.map .text ++ left) := unread
  generalize behind : entry.body.map RawLine.text ++ left = later at unread'
  have effect : ofLine entry.request (input.past 1 (.text entry.text :: later)) =
      (.entry region (entryStart region) (renderLine entry.text) (entryStop region),
        input.past 2 later) := by
    have next : (input.past 1 (.text entry.text :: later)).next =
        (.ok (some entry.text), input.past 2 later) := Input.next_of_cons rfl
    rw [ofLine_of_entryRegion? of.request, readEntry_text next of.text, ofOutcome,
      Option.getD_some]
  have ok : (Effect.entry region (entryStart region) (renderLine entry.text)
      (entryStop region)).output options state.nesting state.anchors = .ok (some _) := rfl
  have head := reaches_of_effect (Input.next_of_cons unread') effect ok
  have nesting : (Effect.entry region (entryStart region) (renderLine entry.text)
      (entryStop region)).nesting state.nesting = state.nesting.setCurrent region :=
    Nesting.enterEntry_snd _ _
  rw [apply_of_cause? rfl, nesting] at head
  have tail := reaches_texts options { state with nesting := state.nesting.setCurrent region }
    of.body (show (input.past 2 later).unread = _ from behind.symm)
  have length : entry.lines.length = 2 + entry.body.length :=
    Nat.add_comm entry.body.length 2
  rw [length, ← Input.past_past]
  exact head.trans tail

/-- Behind an entry of the list each entry is put out behind a separator, and the document stays as
it is. -/
theorem reaches_more {entries : List Entry} (of : ∀ entry ∈ entries, entry.Of region)
    (open_ : state.nesting.current = region)
    (unread : input.unread = (entries.flatMap Entry.lines).map .text ++ left) :
    Reaches options state input (entryChunks region region.separator entries) state
      (input.past (entries.flatMap Entry.lines).length left) := by
  induction entries generalizing input with
  | nil =>
    rw [← show input.unread = left from unread]
    exact .here state input
  | cons entry entries ih =>
    rw [List.flatMap_cons, List.map_append, List.append_assoc] at unread
    have head := (of entry List.mem_cons_self).reaches options state unread
    have separator : (state.nesting.enterEntry region).1 = region.separator := by
      rw [Nesting.enterEntry, if_pos open_]
    have same : state.nesting.setCurrent region = state.nesting := by
      rw [← open_]
      rfl
    rw [separator, same] at head
    rw [List.flatMap_cons, List.length_append, ← Input.past_past]
    exact head.trans (ih (fun other mem => of other (List.mem_cons_of_mem _ mem)) rfl)

/-- Entries in a paragraph are put out as one list, which the first of them opens. -/
theorem reaches_entries {first : Entry} {more : List Entry}
    (of : ∀ entry ∈ first :: more, entry.Of region) (paragraph : state.nesting.current = .paragraph)
    (isList : region ≠ .paragraph)
    (unread : input.unread = ((first :: more).flatMap Entry.lines).map .text ++ left) :
    Reaches options state input (entryChunks region region.opening (first :: more))
      { state with nesting := state.nesting.setCurrent region }
      (input.past ((first :: more).flatMap Entry.lines).length left) := by
  rw [List.flatMap_cons, List.map_append, List.append_assoc] at unread
  have head := (of first List.mem_cons_self).reaches options state unread
  have opening : (state.nesting.enterEntry region).1 = region.opening := by
    rw [Nesting.enterEntry, if_neg (paragraph ▸ Ne.symm isList), paragraph]
    rfl
  rw [opening] at head
  rw [List.flatMap_cons, List.length_append, ← Input.past_past]
  refine head.trans (reaches_more (fun other mem => of other (List.mem_cons_of_mem _ mem)) ?_ rfl)
  rfl

/-! ### The tags of entries -/

def entryTags : Region → List Tag
  | .paragraph => []
  | .definitions => [.opening .dt, .closing .dt, .opening .dd]
  | .bullets => [.opening .li]

theorem isBody_entryMarkup (region : Region) :
    IsBody (entryStart region) ∧ IsBody (entryStop region) := by
  cases region with
  | paragraph => exact ⟨.nil, .nil⟩
  | definitions => exact ⟨.start .dt, (IsBody.stop .dt).append (.start .dd)⟩
  | bullets => exact ⟨.start .li, .nil⟩

theorem listTags_entryMarkup (region : Region) :
    listTags (entryStart region) ++ listTags (entryStop region) = entryTags region := by
  cases region <;> rfl

/-- The start of an entry closes no list. -/
theorem not_closing_mem_entryTags (h : region.IsListOf list item) (other : Region) :
    .closing list ∉ listTags other.opening ++ entryTags other := by
  rcases h.eq with ⟨-, rfl, -⟩ | ⟨-, rfl, -⟩
  · cases other <;> decide
  · cases other <;> decide

/-- The markup of an entry around a text, behind `start`. -/
theorem listTags_entry (isHtml : IsHtml start) {html : Text} (phrase : IsPhrase html)
    (region : Region) :
    IsHtml (start ++ entryStart region ++ html ++ entryStop region) ∧
      listTags (start ++ entryStart region ++ html ++ entryStop region) =
        listTags start ++ entryTags region := by
  obtain ⟨before, after⟩ := isBody_entryMarkup region
  have front := isHtml.append before.isHtml
  have text := front.append phrase.isHtml
  refine ⟨text.append after.isHtml, ?_⟩
  rw [text.listTags_append, front.listTags_append, isHtml.listTags_append, listTags_phrase phrase,
    List.append_nil, List.append_assoc, listTags_entryMarkup]

theorem listTags_joinLines {chunks : List Text} (isHtml : ∀ chunk ∈ chunks, IsHtml chunk) :
    listTags (joinLines chunks) = chunks.flatMap listTags := by
  have newline : IsHtml ['\n'] := IsBody.newline.isHtml
  rw [joinLines, listTags_flatMap fun chunk mem => (isHtml chunk mem).append newline]
  refine List.flatMap_congr fun chunk mem => ?_
  rw [(isHtml chunk mem).listTags_append]
  exact List.append_nil _

theorem listTags_chunks (isHtml : IsHtml start) (region : Region) (entry : Entry) :
    (∀ chunk ∈ entry.chunks region start, IsHtml chunk) ∧
      (entry.chunks region start).flatMap listTags = listTags start ++ entryTags region := by
  obtain ⟨head, tags⟩ := listTags_entry isHtml (isPhrase_renderLine entry.text) region
  constructor
  · refine List.forall_mem_cons.mpr ⟨head, fun chunk mem => ?_⟩
    obtain ⟨line, -, rfl⟩ := List.mem_map.mp mem
    exact (isPhrase_renderLine line).isHtml
  · have body : (entry.body.map renderLine).flatMap listTags = [] := by
      rw [List.flatMap_map, List.flatMap_eq_nil_iff]
      exact fun line _ => listTags_phrase (isPhrase_renderLine line)
    rw [Entry.chunks, List.flatMap_cons, tags, body, List.append_nil]

/-- The tags of lists in entries: those of each entry, behind the tags of what stands in front. -/
theorem listTags_entryChunks (isHtml : IsHtml start) (region : Region) (first : Entry)
    (more : List Entry) :
    (∀ chunk ∈ entryChunks region start (first :: more), IsHtml chunk) ∧
      (entryChunks region start (first :: more)).flatMap listTags =
        listTags start ++ entryTags region ++
          more.flatMap fun _ => listTags region.separator ++ entryTags region := by
  induction more generalizing start first with
  | nil =>
    obtain ⟨head, tags⟩ := listTags_chunks isHtml region first
    rw [entryChunks, entryChunks, List.append_nil, tags]
    exact ⟨head, (List.append_nil _).symm⟩
  | cons second more ih =>
    obtain ⟨head, tags⟩ := listTags_chunks isHtml region first
    obtain ⟨tail, tags'⟩ := ih region.isBody_separator.isHtml second
    rw [entryChunks, List.flatMap_append, tags, tags', List.flatMap_cons]
    exact ⟨List.forall_mem_append.mpr ⟨head, tail⟩, rfl⟩

end Document

end ManPage
