import ManPage.Proofs.Document.Body
import ManPage.Proofs.Document.Markup

/-! The tags around the body of a page. Each line that asks for the title puts out the head of the
page, but the page has one end: where two lines ask for the title, its head stands there twice. -/

namespace ManPage.Document

open Markup

def headTags : List Text :=
  pageTags.take 8

def endTags : List Text :=
  pageTags.drop 8

/-- The tags of HTML that stand around the body of a document, from left to right. -/
def pageTagsIn (html : Text) : List Text :=
  (tags html).filter fun inside => inside ∈ pageTags

theorem pageTagsIn_append {first : Text} (h : IsHtml first) (second : Text) :
    pageTagsIn (first ++ second) = pageTagsIn first ++ pageTagsIn second := by
  rw [pageTagsIn, h.tags_append, List.filter_append]
  rfl

theorem pageTagsIn_body {html : Text} (h : IsBody html) : pageTagsIn html = [] :=
  List.filter_eq_nil_iff.mpr fun inside mem => by simpa using h.inside inside mem

theorem pageTagsIn_tag {inside : Text} (known : inside ∈ pageTags) :
    pageTagsIn ('<' :: inside ++ ['>']) = [inside] := by
  rw [pageTagsIn, tags_tag_append (.page known) [], tags_nil,
    List.filter_cons_of_pos (by simpa using known), List.filter_nil]

theorem pageTagsIn_lines {insides : List Text} (known : ∀ inside ∈ insides, inside ∈ pageTags) :
    pageTagsIn (insides.flatMap fun inside => '<' :: inside ++ ['>'] ++ ['\n']) = insides := by
  induction insides with
  | nil => rfl
  | cons inside insides ih =>
    have tag := isHtml_tag (.page (known inside List.mem_cons_self))
    rw [List.flatMap_cons, pageTagsIn_append (tag.append IsBody.newline.isHtml),
      pageTagsIn_append tag, pageTagsIn_tag (known inside List.mem_cons_self),
      pageTagsIn_body .newline, ih fun inside mem => known inside (List.mem_cons_of_mem _ mem)]
    rfl

theorem pageTagsIn_htmlHead (args : List Text) :
    pageTagsIn (Title.ofArgs args).htmlHead = headTags := by
  have front : ∀ inside ∈ pageTags.take 4, inside ∈ pageTags := fun _ => List.mem_of_mem_take
  have back : ∀ inside ∈ ["/title", "/head"].map String.toList, inside ∈ pageTags := by decide
  have title : "title".toList ∈ pageTags := by decide
  have body : "body".toList ∈ pageTags := by decide
  have name := Title.escaped_displayName args
  have plain : Escaped " manual page".toList := escaped_of_plain rfl
  have html (insides : List Text) (known : ∀ inside ∈ insides, inside ∈ pageTags) :
      IsHtml (insides.flatMap fun inside => '<' :: inside ++ ['>'] ++ ['\n']) :=
    isHtml_flatMap fun inside mem => (isHtml_tag (.page (known inside mem))).append
      IsBody.newline.isHtml
  have first := (html _ front).append (isHtml_tag (.page title))
  have second := first.append name.isHtml
  have third := second.append plain.isHtml
  rw [Title.htmlHead_eq, pageTagsIn_append (third.append (html _ back)), pageTagsIn_append third,
    pageTagsIn_append second, pageTagsIn_append first, pageTagsIn_append (html _ front),
    pageTagsIn_lines front, pageTagsIn_tag title, pageTagsIn_body (.escaped name),
    pageTagsIn_body (.escaped plain), pageTagsIn_lines back, pageTagsIn_tag body]
  rfl

theorem pageTagsIn_htmlTrailer : pageTagsIn Title.htmlTrailer = endTags := by
  decide

/-! ### Lines -/

/-- HTML in which `found` are the tags around the body of a document. -/
structure Frames (html : Text) (found : List Text) : Prop where
  isHtml : IsHtml html
  tags : pageTagsIn html = found

theorem Frames.append {first second : Text} {found found' : List Text} (hf : Frames first found)
    (hs : Frames second found') : Frames (first ++ second) (found ++ found') := by
  refine ⟨hf.isHtml.append hs.isHtml, ?_⟩
  rw [pageTagsIn_append hf.isHtml, hf.tags, hs.tags]

theorem frames_body {html : Text} (h : IsBody html) : Frames html [] :=
  ⟨h.isHtml, pageTagsIn_body h⟩

theorem frames_joinLines {piece : Option Text} {found : List Text}
    (h : Frames (piece.getD []) found) : Frames (joinLines piece.toList) found := by
  cases piece with
  | none => exact h
  | some html =>
    have line := h.append (frames_body .newline)
    rw [List.append_nil] at line
    show Frames (joinLines [html]) found
    rw [joinLines_cons, ← List.append_nil found]
    exact line.append (frames_body .nil)

variable {options : Options} {state : State} {input : Input}

/-- A line puts out the head of the page if it asks for the title, and the body if not. -/
theorem frames_turn (html : options.mode = .html) {turn : Turn}
    (mem : turn ∈ (run options state input).turns) :
    Frames (turn.output?.getD []) (if asksForTitle turn.line then headTags else []) := by
  by_cases asks : asksForTitle turn.line = true
  · rw [if_pos asks]
    rw [← isSome_title?] at asks
    obtain ⟨title, asked⟩ := Option.isSome_iff_exists.mp asks
    obtain ⟨-, args, -, -, rfl⟩ := title?_eq_some.mp asked
    rw [output?_of_title mem asked, Title.head?, html]
    exact ⟨(Title.neutral_htmlHead args []).isHtml, pageTagsIn_htmlHead args⟩
  · rw [if_neg asks]
    obtain ⟨before, line, rest, rfl⟩ := turns_of_run options state input turn mem
    unfold Turn.output?
    cases outcome : (turnOf options before line rest).step.output with
    | error error => exact frames_body .nil
    | ok output =>
      have does := (step_does options before line rest).output
      have body := Effect.putsBody_ofLine (Bool.eq_false_iff.mpr asks) rest
      exact frames_body (body.output (does.symm.trans outcome))

theorem frames_turns {turns : List Turn}
    (each : ∀ turn ∈ turns, Frames (turn.output?.getD [])
      (if asksForTitle turn.line then headTags else [])) :
    Frames (joinLines (turns.filterMap Turn.output?))
      (List.replicate (turns.countP (asksForTitle ·.line)) headTags).flatten := by
  induction turns with
  | nil => exact frames_body .nil
  | cons turn turns ih =>
    have first := frames_joinLines (each turn List.mem_cons_self)
    have later := ih fun turn mem => each turn (List.mem_cons_of_mem _ mem)
    rw [joinLines_filterMap_cons]
    by_cases asks : asksForTitle turn.line = true
    · rw [if_pos asks] at first
      rw [List.countP_cons, if_pos asks, List.replicate_succ, List.flatten_cons]
      exact first.append later
    · rw [if_neg asks] at first
      rw [List.countP_cons, if_neg asks]
      exact first.append later

theorem frames_closing {run : Run} (success : run.failure = none) :
    Frames (joinLines run.closing?.toList) [] := by
  refine frames_joinLines (frames_body ?_)
  rw [Run.closing?, if_pos success, getD_nonempty?]
  exact .flatMap fun region _ => region.isBody_closing

theorem frames_ending : Frames (joinLines (some Title.htmlTrailer).toList) endTags := by
  have trailer : Frames ((some Title.htmlTrailer).getD []) endTags :=
    ⟨(Title.neutral_htmlTrailer []).isHtml, pageTagsIn_htmlTrailer⟩
  exact frames_joinLines trailer

/-! ### Pages -/

/-- The tags of `heads` heads and of one end behind them, if there is a head. -/
def framesOf (heads : Nat) : List Text :=
  (List.replicate heads headTags).flatten ++ if heads = 0 then [] else endTags

theorem count_framesOf (heads : Nat) :
    (framesOf heads).count "body".toList = heads ∧
      (framesOf heads).count "/body".toList = min heads 1 := by
  have head : headTags.count "body".toList = 1 ∧ headTags.count "/body".toList = 0 := by decide
  have end_ : endTags.count "body".toList = 0 ∧ endTags.count "/body".toList = 1 := by decide
  unfold framesOf
  cases heads with
  | zero => exact ⟨rfl, rfl⟩
  | succ heads =>
    rw [if_neg (Nat.succ_ne_zero heads), List.count_append, List.count_append, List.count_flatten,
      List.count_flatten, List.map_replicate, List.map_replicate, head.1, head.2, end_.1, end_.2]
    simp

/-- How many lines of a run ask for the title. -/
def Run.titles (run : Run) : Nat :=
  run.turns.countP (asksForTitle ·.line)

theorem ending?_html (html : options.mode = .html)
    (success : (run options {} input).failure = none) :
    (run options {} input).ending? =
      if (run options {} input).titles = 0 then none else some Title.htmlTrailer := by
  have hasTitle : (run options {} input).hasTitle = true ↔ (run options {} input).titles ≠ 0 := by
    rw [Run.hasTitle, List.any_eq_true, ← Nat.pos_iff_ne_zero, Run.titles, List.countP_pos_iff]
  rw [ending?_run, Title.trailer?, html]
  by_cases untitled : (run options {} input).titles = 0
  · rw [if_pos untitled, if_neg fun both => hasTitle.mp both.2 untitled]
  · rw [if_neg untitled, if_pos ⟨success, hasTitle.mpr untitled⟩]

/-- A page with HTML around it has a head for each title, and an end behind everything else if there
is a title. -/
theorem pageTagsIn_convert (html : options.mode = .html)
    (success : (run options {} input).failure = none) :
    pageTagsIn (convert options input).html = framesOf (run options {} input).titles := by
  have lines := frames_turns fun turn (mem : turn ∈ (run options {} input).turns) =>
    frames_turn html mem
  have front := lines.append (frames_closing success)
  rw [convert_html, pageTagsIn_append front.isHtml, front.tags, List.append_nil,
    ending?_html html success, framesOf]
  split
  · rfl
  · exact congrArg _ frames_ending.tags

theorem count_pageTagsIn {inside : Text} (known : inside ∈ pageTags) (html : Text) :
    (pageTagsIn html).count inside = (tags html).count inside :=
  List.count_filter (by simpa using known)

/-- The output of a page with HTML around it has a head for each line that asks for the title, and
one end, behind everything else, if there is such a line; no other line puts out a tag of either. So
the body of the document is closed as often as it is opened if and only if at most one line asks for
the title. -/
theorem pageTags_convert (layout permalink : Option Text) (name text : Text) :
    let options : Options := { mode := .html, layout, permalink }
    let ran := run options {} (.ofText name text)
    let page := (convert options (.ofText name text)).html
    (∀ turn ∈ ran.turns, ∀ title, title? turn.line = some title →
      turn.output? = some title.htmlHead) ∧
    pageTagsIn page = framesOf ran.titles ∧
    ((tags page).count "body".toList = (tags page).count "/body".toList ↔ ran.titles ≤ 1) ∧
    (ran.titles ≠ 0 → Title.htmlTrailer ++ ['\n'] <:+ page) := by
  intro options ran page
  have success : ran.failure = none := run_ofText options name text
  have frames : pageTagsIn page = framesOf ran.titles := pageTagsIn_convert rfl success
  refine ⟨fun turn mem title asked => output?_of_title mem asked, frames, ?_, fun titled => ?_⟩
  · obtain ⟨heads, ends⟩ := count_framesOf ran.titles
    rw [← count_pageTagsIn (by decide), ← count_pageTagsIn (by decide), frames, heads, ends]
    omega
  · have ending := ending?_html rfl success
    rw [if_neg titled] at ending
    show _ <:+ (convert options (.ofText name text)).html
    rw [convert_html, ending]
    exact List.suffix_append _ _

/-- A page with two titles has two heads and one end. -/
theorem pageTags_convert_titles :
    let text := ".TH a 1\n.TH b 2\n".toList
    let page := (convert {} (.ofText [] text)).html
    pageTagsIn page = headTags ++ headTags ++ endTags ∧
      Title.htmlTrailer ++ ['\n'] <:+ page := by
  intro text page
  obtain ⟨-, frames, -, last⟩ := pageTags_convert none none [] text
  have titles : (run {} {} (.ofText [] text)).titles = 2 := by decide +kernel
  rw [titles] at frames last
  exact ⟨frames.trans (by decide), last (by decide)⟩

/-- With two titles the body of a page is opened twice and closed once. -/
theorem not_count_body_eq : ¬∀ options name text, options.mode = .html →
    let page := (convert options (.ofText name text)).html
    (tags page).count "body".toList = (tags page).count "/body".toList := by
  intro matches_
  have twice := matches_ {} [] ".TH a 1\n.TH b 2\n".toList rfl
  revert twice
  decide +kernel

end ManPage.Document
