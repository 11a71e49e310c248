import Mathlib.Data.List.Infix
import ManPage.Proofs.Document.Effect
import ManPage.Proofs.Document.Markup
import ManPage.Proofs.Markup.Lists

/-! Margin blocks. Between an increase of the margin and the decrease that matches it, a document
works on regions of its own and does not look at those around them. So the block leaves the regions
as they were, and its lists are complete. -/

namespace ManPage

open Markup

/-! ### Regions around a nesting -/

namespace Nesting

variable {nesting : Nesting} {base : List Region}

/-- A nesting with the regions `base` around its own. -/
def within (nesting : Nesting) (base : List Region) : Nesting :=
  { nesting with outer := nesting.outer ++ base }

theorem isBase_within (more : base ≠ []) : (nesting.within base).isBase = false := by
  simp [within, isBase, more]

theorem enterEntry_within (region : Region) : (nesting.within base).enterEntry region =
    ((nesting.enterEntry region).1, (nesting.enterEntry region).2.within base) := by
  have current : (nesting.within base).current = nesting.current := rfl
  unfold enterEntry
  rw [current]
  split <;> rfl

theorem closeRegion_snd_within :
    (nesting.within base).closeRegion.2 = nesting.closeRegion.2.within base := by
  rw [closeRegion_snd, closeRegion_snd]
  rfl

theorem pop_fst (nesting : Nesting) : nesting.pop.1 = nesting.current := by
  unfold pop
  split <;> rfl

theorem pop_within (more : nesting.outer ≠ []) :
    (nesting.within base).pop.2 = nesting.pop.2.within base := by
  obtain ⟨current, outer⟩ := nesting
  cases outer with
  | nil => exact absurd rfl more
  | cons region outer => rfl

theorem outer_enterEntry (region : Region) :
    (nesting.enterEntry region).2.outer = nesting.outer := by
  rw [enterEntry_snd]
  rfl

theorem outer_closeRegion (nesting : Nesting) : nesting.closeRegion.2.outer = nesting.outer := by
  rw [closeRegion_snd]
  rfl

theorem length_outer_pop (more : nesting.outer ≠ []) :
    nesting.pop.2.outer.length + 1 = nesting.outer.length := by
  obtain ⟨current, outer⟩ := nesting
  cases outer with
  | nil => exact absurd rfl more
  | cons region outer => rfl

end Nesting

namespace Document

/-! ### Effects inside regions -/

namespace Effect

variable {effect : Effect} {nesting : Nesting} {base : List Region}

theorem nesting_within (covered : effect = .marginDecrease → nesting.outer ≠ []) :
    effect.nesting (nesting.within base) = (effect.nesting nesting).within base := by
  cases effect with
  | paragraph => exact Nesting.closeRegion_snd_within
  | heading level text => exact Nesting.closeRegion_snd_within
  | entry region before html after => exact congrArg Prod.snd (Nesting.enterEntry_within region)
  | fault error entered =>
    cases entered with
    | none => rfl
    | some region => exact congrArg Prod.snd (Nesting.enterEntry_within region)
  | marginDecrease => exact Nesting.pop_within (covered rfl)
  | _ => rfl

theorem output_within (options : Options) (anchors : Anchors) :
    effect.output options (nesting.within base) anchors =
      effect.output options nesting anchors := by
  cases effect with
  | entry region before html after =>
    show Except.ok _ = Except.ok _
    rw [Nesting.enterEntry_within]
  | marginDecrease =>
    show Except.ok _ = Except.ok _
    rw [Nesting.pop_fst, Nesting.pop_fst]
    rfl
  | _ => rfl

theorem outer_nesting (increase : effect ≠ .marginIncrease) (decrease : effect ≠ .marginDecrease) :
    (effect.nesting nesting).outer = nesting.outer := by
  cases effect with
  | marginIncrease => exact absurd rfl increase
  | marginDecrease => exact absurd rfl decrease
  | paragraph => exact Nesting.outer_closeRegion nesting
  | heading level text => exact Nesting.outer_closeRegion nesting
  | entry region before html after => exact Nesting.outer_enterEntry region
  | fault error entered =>
    cases entered with
    | none => rfl
    | some region => exact Nesting.outer_enterEntry region
  | _ => rfl

end Effect

/-! ### Requests about the margin -/

def Turn.increases (turn : Turn) : Bool :=
  request? turn.line == some .marginIncrease

def Turn.decreases (turn : Turn) : Bool :=
  request? turn.line == some .marginDecrease

variable {options : Options} {state after : State} {base : List Region} {nesting : Nesting}
  {line : Text} {rest : Input} {output : Option Text} {turns : List Turn}

theorem decreases_turnOf : (turnOf options state line rest).decreases ↔
    (Effect.ofLine line rest).1 = .marginDecrease := by
  rw [ofLine_eq_marginDecrease_iff]
  exact beq_iff_eq

theorem increases_turnOf : (turnOf options state line rest).increases ↔
    (Effect.ofLine line rest).1 = .marginIncrease := by
  rw [ofLine_eq_marginIncrease_iff]
  exact beq_iff_eq

/-- The depth of a nesting counts the increases and the decreases. -/
theorem length_outer_nesting
    (covered : (turnOf options state line rest).decreases → nesting.outer ≠ []) :
    ((Effect.ofLine line rest).1.nesting nesting).outer.length +
        [turnOf options state line rest].countP Turn.decreases =
      nesting.outer.length + [turnOf options state line rest].countP Turn.increases := by
  by_cases decrease : (turnOf options state line rest).decreases
  · have effect := decreases_turnOf.mp decrease
    have other : ¬(turnOf options state line rest).increases := by
      rw [increases_turnOf, effect]
      simp
    rw [List.countP_singleton, List.countP_singleton, if_pos decrease, if_neg other, effect]
    exact Nesting.length_outer_pop (covered decrease)
  · rw [List.countP_singleton, List.countP_singleton, if_neg decrease]
    rw [decreases_turnOf] at decrease
    by_cases increase : (turnOf options state line rest).increases
    · rw [if_pos increase, increases_turnOf.mp increase]
      rfl
    · rw [if_neg increase]
      rw [increases_turnOf] at increase
      rw [Effect.outer_nesting increase decrease]

/-- Inside other regions a line does what it does outside of them, as long as it does not leave
them. -/
theorem turn_within (ok : (step options state line rest).output = .ok output)
    (inside : state.nesting = nesting.within base)
    (covered : (turnOf options state line rest).decreases → nesting.outer ≠ []) :
    ∃ (nesting' : Nesting) (ids : List Text),
      (step options state line rest).state.nesting = nesting'.within base ∧
      nesting'.outer.length + [turnOf options state line rest].countP Turn.decreases =
        nesting.outer.length + [turnOf options state line rest].countP Turn.increases ∧
      Nests nesting.opened (((turnOf options state line rest).html? options).getD [])
        nesting'.opened ids := by
  have does := step_does options state line rest
  -- The same line in the document without the regions around it.
  have alone := step_does options { state with nesting } line rest
  have same : (step options { state with nesting } line rest).output =
      (step options state line rest).output := by
    rw [alone.output, does.output, inside]
    exact (Effect.output_within options state.anchors).symm
  obtain ⟨new, leads⟩ := turn_leads (same.trans ok)
  have html : (turnOf options { state with nesting } line rest).html? options =
      (turnOf options state line rest).html? options := by
    unfold Turn.html? Turn.output?
    rw [show (turnOf options { state with nesting } line rest).step.output =
      (turnOf options state line rest).step.output from same]
    rfl
  have nests := leads.nests
  rw [html, alone.state] at nests
  refine ⟨(Effect.ofLine line rest).1.nesting nesting, _, ?_, length_outer_nesting covered, nests⟩
  rw [does.state]
  show (Effect.ofLine line rest).1.nesting state.nesting = _
  rw [inside]
  exact Effect.nesting_within fun effect => covered (decreases_turnOf.mpr effect)

/-- Inside other regions a session does what it does outside of them, as long as it does not leave
them. -/
theorem Session.within (session : Session options state turns after)
    (inside : state.nesting = nesting.within base)
    (covered : ∀ start, start <+: turns →
      start.countP Turn.decreases ≤ start.countP Turn.increases + nesting.outer.length) :
    ∃ (nesting' : Nesting) (ids : List Text), after.nesting = nesting'.within base ∧
      nesting'.outer.length + turns.countP Turn.decreases =
        nesting.outer.length + turns.countP Turn.increases ∧
      Nests nesting.opened (joinLines (turns.filterMap (Turn.html? options))) nesting'.opened
        ids := by
  induction session generalizing nesting with
  | nil state => exact ⟨nesting, [], inside, rfl, .nil⟩
  | @cons state after line rest output turns ok later ih =>
    have first : (turnOf options state line rest).decreases → nesting.outer ≠ [] := by
      intro decrease empty
      have count := covered [turnOf options state line rest] (by simp)
      have other : ¬(turnOf options state line rest).increases := by
        rw [increases_turnOf, decreases_turnOf.mp decrease]
        simp
      rw [List.countP_singleton, List.countP_singleton, if_pos decrease, if_neg other, empty]
        at count
      exact absurd count (by decide)
    obtain ⟨between, ids, between_eq, depth, head⟩ := turn_within ok inside first
    obtain ⟨nesting', ids', after_eq, depth', tail⟩ := ih between_eq fun start isPrefix => by
      have count := covered (turnOf options state line rest :: start)
        (List.cons_prefix_cons.mpr ⟨rfl, isPrefix⟩)
      rw [← List.singleton_append, List.countP_append, List.countP_append] at count
      omega
    refine ⟨nesting', ids ++ ids', after_eq, ?_, ?_⟩
    · rw [← List.singleton_append, List.countP_append, List.countP_append]
      omega
    · rw [joinLines_filterMap_cons]
      exact (nests_joinLines head).join tail

/-! ### Margin blocks -/

theorem html?_turnOf {request : Request} (made : request? line = some request)
    (other : request ≠ .title) (ok : (step options state line rest).output = .ok output) :
    (turnOf options state line rest).html? options = output := by
  have title : asksForTitle line = false := by
    rw [asksForTitle_eq, made]
    simpa using other
  have front : (turnOf options state line rest).isFrontMatter options = false := by
    rw [Turn.isFrontMatter, turnOf, title, Bool.and_false]
  rw [Turn.html?, front, Turn.output?, turnOf]
  simp [ok]

theorem outcome_of_increases (increase : request? line = some .marginIncrease) :
    (step options state line rest).output = .ok none ∧
      (step options state line rest).state.nesting =
        ({} : Nesting).within (state.nesting.current :: state.nesting.outer) := by
  have does := step_does options state line rest
  rw [does.output, does.state, ofLine_eq_marginIncrease_iff.mpr increase]
  exact ⟨rfl, rfl⟩

theorem outcome_of_decreases (decrease : request? line = some .marginDecrease) :
    (step options state line rest).output =
        .ok (Text.nonempty? state.nesting.current.closing) ∧
      (step options state line rest).state.nesting = state.nesting.pop.2 ∧
      (state.nesting.isBase = false →
        (step options state line rest).state.problems = state.problems) := by
  have does := step_does options state line rest
  rw [does.output, does.state, ofLine_eq_marginDecrease_iff.mpr decrease, ← Nesting.pop_fst]
  refine ⟨rfl, rfl, fun more => ?_⟩
  simp [Effect.apply, Effect.cause?, more]

/-- The lines of a margin block work inside the regions that are open in front of it. -/
theorem Session.inside_block {opening : Turn}
    (session : Session options state (opening :: turns) after) (opens : opening.increases)
    (covered : ∀ start, start <+: turns →
      start.countP Turn.decreases ≤ start.countP Turn.increases) :
    ∃ (nesting : Nesting) (ids : List Text),
      after.nesting = nesting.within (state.nesting.current :: state.nesting.outer) ∧
      nesting.outer.length + turns.countP Turn.decreases = turns.countP Turn.increases ∧
      Nests [] (joinLines ((opening :: turns).filterMap (Turn.html? options))) nesting.opened
        ids := by
  obtain ⟨⟨line, rest, output, rfl, ok⟩, later⟩ := session.of_cons
  have increase : request? line = some .marginIncrease := beq_iff_eq.mp opens
  obtain ⟨silent, inside⟩ := outcome_of_increases increase
  obtain ⟨nesting, ids, after_eq, depth, nests⟩ := later.within inside fun start isPrefix => by
    have count := covered start isPrefix
    omega
  refine ⟨nesting, ids, after_eq, depth.trans (Nat.zero_add _), ?_⟩
  rw [joinLines_filterMap_cons, html?_turnOf increase (by decide) silent]
  exact nests

/-- No decrease of the margin in a margin block reports anything. -/
theorem Session.problems_of_decreases {opening turn : Turn} {before : List Turn} {between : State}
    (front : Session options state (opening :: before) between)
    (back : Session options between (turn :: turns) after) (opens : opening.increases)
    (decreases : turn.decreases)
    (covered : ∀ start, start <+: before →
      start.countP Turn.decreases ≤ start.countP Turn.increases) :
    turn.step.state.problems = between.problems := by
  obtain ⟨⟨line, rest, output, rfl, ok⟩, -⟩ := back.of_cons
  obtain ⟨nesting, ids, inside, -, -⟩ := front.inside_block opens covered
  have decrease : request? line = some .marginDecrease := beq_iff_eq.mp decreases
  obtain ⟨-, -, quiet⟩ : (step options between line rest).output = _ ∧ _ :=
    outcome_of_decreases decrease
  apply quiet
  rw [inside]
  exact Nesting.isBase_within (by simp)

/-- No decrease of the margin in a margin block, the last included, reports anything. -/
theorem Session.quiet_block {opening closing turn : Turn} {before behind : List Turn}
    {between : State} (session : Session options state (opening :: (turns ++ [closing])) after)
    (opens : opening.increases)
    (covered : ∀ start, start <+: turns →
      start.countP Turn.decreases ≤ start.countP Turn.increases)
    (split : opening :: (turns ++ [closing]) = before ++ turn :: behind)
    (started : Session options state before between) (decreases : turn.decreases) :
    turn.step.state.problems = between.problems := by
  rw [split] at session
  obtain ⟨between', start, later⟩ := session.of_append
  obtain rfl := started.unique start
  cases before with
  | nil =>
    obtain ⟨rfl, -⟩ := List.cons.inj split
    have both : request? opening.line = some .marginIncrease := beq_iff_eq.mp opens
    rw [beq_iff_eq.mp decreases] at both
    cases both
  | cons first before =>
    obtain ⟨rfl, inner⟩ := List.cons.inj split
    have isPrefix : before <+: turns := by
      have start : before <+: turns ++ [closing] := by
        rw [inner]
        exact List.prefix_append _ _
      refine (List.prefix_concat_iff.mp start).resolve_left fun all => ?_
      have length := congrArg List.length inner
      simp [all] at length
    exact started.problems_of_decreases later opens decreases fun start h =>
      covered start (h.trans isPrefix)

/-- A decrease of the margin behind a session that works inside one region of its own closes it. -/
theorem nests_block {nesting : Nesting} {ids : List Text} (base : nesting.outer = [])
    (inside : state.nesting.current = nesting.current)
    (nests : Nests [] (joinLines (turns.filterMap (Turn.html? options))) nesting.opened ids)
    (decrease : request? line = some .marginDecrease) :
    Nests [] (joinLines ((turns ++ [turnOf options state line rest]).filterMap
      (Turn.html? options))) [] ids := by
  obtain ⟨written, -⟩ : (step options state line rest).output = _ ∧ _ :=
    outcome_of_decreases decrease
  have close : Nests nesting.opened
      (joinLines (Text.nonempty? state.nesting.current.closing).toList) [] := by
    refine nests_joinLines ?_
    rw [getD_nonempty?, inside]
    have close := nesting.nests_current_closing
    rwa [base] at close
  rw [List.filterMap_append, joinLines_append, joinLines_filterMap_cons _ _ [],
    html?_turnOf decrease (by decide) written, ← List.append_nil ids]
  exact nests.join (close.append .nil)

/-- A margin block - an increase of the margin, lines that increase it as often as they decrease it
and never less so on the way, and a decrease - leaves the nesting as it was. None of its decreases
reports anything, and its lists are complete: their tags are nested among themselves. -/
theorem margin_block {opening closing : Turn}
    (session : Session options state (opening :: (turns ++ [closing])) after)
    (opens : opening.increases) (closes : closing.decreases)
    (covered : ∀ start, start <+: turns →
      start.countP Turn.decreases ≤ start.countP Turn.increases)
    (even : turns.countP Turn.decreases = turns.countP Turn.increases) :
    after.nesting = state.nesting ∧
    (∀ before turn behind between,
      opening :: (turns ++ [closing]) = before ++ turn :: behind →
      Session options state before between → turn.decreases →
      turn.step.state.problems = between.problems) ∧
    nest? [] (listTags (joinLines
      ((opening :: (turns ++ [closing])).filterMap (Turn.html? options)))) = some [] := by
  have whole := session
  rw [← List.cons_append] at session
  -- In front of the decrease just the region of the block is open, inside those around it.
  obtain ⟨last, front, back⟩ := session.of_append
  obtain ⟨nesting, ids, inside, depth, nests⟩ := front.inside_block opens covered
  have base : nesting.outer = [] := List.length_eq_zero_iff.mp (by omega)
  obtain ⟨⟨line, rest, output, rfl, ok⟩, done⟩ := back.of_cons
  have decrease : request? line = some .marginDecrease := beq_iff_eq.mp closes
  refine ⟨?_, fun before turn behind between split started decreases =>
    whole.quiet_block opens covered split started decreases, ?_⟩
  · obtain rfl := done.unique (.nil _)
    obtain ⟨-, left, -⟩ : _ ∧ (step options last line rest).state.nesting = _ ∧ _ :=
      outcome_of_decreases decrease
    show (step options last line rest).state.nesting = state.nesting
    rw [left, inside, Nesting.within, base]
    rfl
  · exact nest?_filter_isListPart (nests_block base (by rw [inside]; rfl) nests decrease).walk

/-- In a list of bullets, a margin block with a list of definitions and an empty block. -/
theorem margin_block_list :
    let state : State := { nesting := { current := .bullets } }
    let rest : Input := { name := [], unread := [.text ['x']] }
    let opening := turnOf {} state ".RS".toList rest
    let term := turnOf {} opening.step.state ".TP".toList rest
    let inner := turnOf {} term.step.state ".RS".toList rest
    let back := turnOf {} inner.step.state ".RE".toList rest
    let closing := turnOf {} back.step.state ".RE".toList rest
    let turns := [opening, term, inner, back, closing]
    Session {} state turns closing.step.state ∧ closing.step.state.nesting = state.nesting ∧
      closing.step.state.problems = back.step.state.problems ∧
      listTags (joinLines (turns.filterMap (Turn.html? {}))) =
        [.opening .dl, .opening .dt, .closing .dt, .opening .dd, .closing .dd, .closing .dl] ∧
      nest? [] (listTags (joinLines (turns.filterMap (Turn.html? {})))) = some [] := by
  intro state rest opening term inner back closing turns
  have written : term.step.output = .ok (some "<dl><dt>x</dt><dd>".toList) := by decide +kernel
  have closed : closing.step.output = .ok (some "</dd></dl>".toList) := by decide +kernel
  have silent : opening.step.output = .ok none := by decide +kernel
  have silent' : inner.step.output = .ok none := by decide +kernel
  have silent'' : back.step.output = .ok none := by decide +kernel
  have front : Session {} state [opening, term, inner, back] back.step.state :=
    .cons silent (.cons written (.cons silent' (.cons silent'' (.nil _))))
  have session : Session {} state turns closing.step.state :=
    .cons silent (.cons written (.cons silent' (.cons silent'' (.cons closed (.nil _)))))
  have covered : ∀ start ∈ [term, inner, back].inits,
      start.countP Turn.decreases ≤ start.countP Turn.increases := by
    decide +kernel
  have block : opening :: ([term, inner, back] ++ [closing]) = turns := rfl
  obtain ⟨nesting, quiet, nested⟩ := margin_block (block ▸ session) (by decide +kernel)
    (by decide +kernel) (fun start h => covered start (List.mem_inits start _ |>.mpr h))
    (by decide +kernel)
  have closes : closing.decreases := by decide +kernel
  exact ⟨session, nesting, quiet [opening, term, inner, back] closing [] _ rfl front closes,
    by decide +kernel, nested⟩

end Document

end ManPage
