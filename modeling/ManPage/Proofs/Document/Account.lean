import Mathlib.Order.Bounds.Basic
import ManPage.Proofs.Document.Margin
import ManPage.Proofs.Document.Title

/-! The account of margins. A document reports a decrease of the margin where it has no increase
left to undo, and then begins anew. So the decreases that are reported are as many as the decreases
exceed the increases at most, at any time so far, and the regions are one more than the increases
that are not undone. -/

namespace ManPage.Document

variable {options : Options} {state after : State} {turns : List Turn} {line : Text} {rest : Input}

/-! ### Sessions from their end -/

/-- Induction over the steps of a session, the last step first. -/
theorem Session.end_induction {motive : List Turn → State → Prop}
    (session : Session options state turns after) (start : motive [] state)
    (turn : ∀ turns between line rest, motive turns between →
      motive (turns ++ [turnOf options between line rest])
        (step options between line rest).state) : motive turns after := by
  induction turns using List.reverseRecOn generalizing after with
  | nil =>
    cases session
    exact start
  | append_singleton turns last ih =>
    obtain ⟨between, front, back⟩ := session.of_append
    obtain ⟨⟨line, rest, output, rfl, -⟩, done⟩ := back.of_cons
    cases done
    exact turn turns between line rest (ih front)

/-! ### Increases and decreases -/

/-- The request about the margin that a line makes. -/
def margin? (line : Text) : Option Request :=
  (request? line).filter fun request => request = .marginIncrease ∨ request = .marginDecrease

/-- The requests about the margin that turns make, in order. -/
def margins (turns : List Turn) : List Request :=
  turns.filterMap (margin? ·.line)

theorem margins_append_turn (options : Options) (turns : List Turn) (state : State) (line : Text)
    (rest : Input) : margins (turns ++ [turnOf options state line rest]) =
      margins turns ++ (margin? line).toList := by
  rw [margins, List.filterMap_append]
  cases h : margin? line <;> simp [turnOf, h, margins]

/-- By how many the decreases of the margin exceed the increases. -/
def excess (margins : List Request) : Int :=
  margins.count .marginDecrease - margins.count .marginIncrease

theorem excess_increase (margins : List Request) :
    excess (margins ++ [.marginIncrease]) = excess margins - 1 := by
  simp [excess]
  omega

theorem excess_decrease (margins : List Request) :
    excess (margins ++ [.marginDecrease]) = excess margins + 1 := by
  simp [excess]
  omega

/-- The values of the excess so far, at any time. -/
def excesses (margins : List Request) : Set Int :=
  {value | ∃ start, start <+: margins ∧ excess start = value}

theorem excesses_concat (margins : List Request) (request : Request) :
    excesses (margins ++ [request]) = insert (excess (margins ++ [request])) (excesses margins) := by
  ext value
  simp only [excesses, List.prefix_concat_iff, Set.mem_ofPred_eq, Set.mem_insert_iff, or_and_right,
    exists_or, exists_eq_left, eq_comm]

/-- The excess in the end is one of its values. -/
theorem excess_le {margins : List Request} {greatest : Int}
    (isGreatest : IsGreatest (excesses margins) greatest) : excess margins ≤ greatest :=
  isGreatest.2 ⟨margins, List.prefix_rfl, rfl⟩

/-- How many problems are decreases of the margin that are not matched. -/
def unmatched (problems : List Problem) : Nat :=
  problems.countP (·.cause == .unmatchedMarginDecrease)

/-! ### The account -/

/-- A document behind the requests `margins` about the margin has reported the greatest excess of
decreases, and has a region for each increase that is left. -/
structure State.Accounts (state : State) (margins : List Request) : Prop where
  reported : IsGreatest (excesses margins) (unmatched state.problems)
  depth : state.nesting.outer.length + excess margins = unmatched state.problems

theorem accounts_empty : State.Accounts {} [] := by
  refine ⟨⟨⟨[], List.prefix_rfl, rfl⟩, ?_⟩, rfl⟩
  rintro value ⟨start, isPrefix, rfl⟩
  rw [List.prefix_nil.mp isPrefix]
  rfl

theorem State.Accounts.increase {margins : List Request} (account : state.Accounts margins)
    (deeper : after.nesting.outer.length = state.nesting.outer.length + 1)
    (same : unmatched after.problems = unmatched state.problems) :
    after.Accounts (margins ++ [.marginIncrease]) := by
  have depth := account.depth
  have below := excess_le account.reported
  constructor
  · have greatest := account.reported.insert (excess (margins ++ [.marginIncrease]))
    rw [← excesses_concat, excess_increase, max_eq_right (by omega)] at greatest
    rwa [same]
  · rw [excess_increase, same]
    omega

/-- A decrease that an increase is left for brings the excess no higher than it was. -/
theorem State.Accounts.decrease {margins : List Request} (account : state.Accounts margins)
    (shallower : after.nesting.outer.length + 1 = state.nesting.outer.length)
    (same : unmatched after.problems = unmatched state.problems) :
    after.Accounts (margins ++ [.marginDecrease]) := by
  have depth := account.depth
  constructor
  · have greatest := account.reported.insert (excess (margins ++ [.marginDecrease]))
    rw [← excesses_concat, excess_decrease, max_eq_right (by omega)] at greatest
    rwa [same]
  · rw [excess_decrease, same]
    omega

/-- Where no increase is left the excess is the greatest so far, and a decrease brings it higher. -/
theorem State.Accounts.report {margins : List Request} (account : state.Accounts margins)
    (base : state.nesting.outer.length = 0) (base' : after.nesting.outer.length = 0)
    (more : unmatched after.problems = unmatched state.problems + 1) :
    after.Accounts (margins ++ [.marginDecrease]) := by
  have depth := account.depth
  constructor
  · have greatest := account.reported.insert (excess (margins ++ [.marginDecrease]))
    rw [← excesses_concat, excess_decrease, max_eq_left (by omega)] at greatest
    have top : ((unmatched state.problems + 1 : Nat) : Int) = excess margins + 1 := by omega
    rwa [more, top]
  · rw [excess_decrease, more]
    omega

theorem State.Accounts.keep {margins : List Request} (account : state.Accounts margins)
    (level : after.nesting.outer.length = state.nesting.outer.length)
    (same : unmatched after.problems = unmatched state.problems) : after.Accounts margins := by
  constructor
  · rw [same]
    exact account.reported
  · rw [same, level]
    exact account.depth

/-! ### Steps -/

theorem outer_pop_of_base {nesting : Nesting} (base : nesting.outer = []) :
    nesting.pop.2.outer = [] := by
  rw [Nesting.pop, base]

theorem unmatched_apply (options : Options) (effect : Effect) (place : Input) (state : State) :
    unmatched (effect.apply options place state).problems = unmatched state.problems +
      if effect = .marginDecrease ∧ state.nesting.isBase then 1 else 0 := by
  unfold unmatched Effect.apply
  rw [List.countP_append]
  congr 1
  cases effect with
  | marginDecrease => by_cases base : state.nesting.isBase <;> simp [Effect.cause?, base]
  | _ => simp [Effect.cause?]

theorem margin?_eq_some {request : Request} : margin? line = some request ↔
    request? line = some request ∧ (request = .marginIncrease ∨ request = .marginDecrease) := by
  simp [margin?, Option.filter_eq_some_iff]

/-- Every step keeps account of the request about the margin that its line makes, if it makes one. -/
theorem State.Accounts.step {margins : List Request} (account : state.Accounts margins)
    (options : Options) (line : Text) (rest : Input) :
    (step options state line rest).state.Accounts (margins ++ (margin? line).toList) := by
  rw [(step_does options state line rest).state]
  have reported := unmatched_apply options (Effect.ofLine line rest).1 rest state
  by_cases decrease : request? line = some .marginDecrease
  · have effect : (Effect.ofLine line rest).1 = .marginDecrease :=
      ofLine_eq_marginDecrease_iff.mpr decrease
    rw [effect] at reported ⊢
    rw [margin?_eq_some.mpr ⟨decrease, .inr rfl⟩]
    by_cases base : state.nesting.outer = []
    · have isBase : state.nesting.isBase := List.isEmpty_iff.mpr base
      rw [if_pos ⟨rfl, isBase⟩] at reported
      exact account.report (by rw [base]; rfl) (congrArg _ (outer_pop_of_base base)) reported
    · have covered : ¬state.nesting.isBase := fun isBase => base (List.isEmpty_iff.mp isBase)
      rw [if_neg fun both => covered both.2] at reported
      exact account.decrease (Nesting.length_outer_pop base) reported
  · have other : (Effect.ofLine line rest).1 ≠ .marginDecrease := by
      rwa [ne_eq, ofLine_eq_marginDecrease_iff]
    rw [if_neg fun both => other both.1] at reported
    by_cases increase : request? line = some .marginIncrease
    · rw [margin?_eq_some.mpr ⟨increase, .inl rfl⟩]
      rw [ofLine_eq_marginIncrease_iff.mpr increase] at reported ⊢
      exact account.increase rfl reported
    · have same : ((Effect.ofLine line rest).1.nesting state.nesting).outer = state.nesting.outer :=
        Effect.outer_nesting (mt ofLine_eq_marginIncrease_iff.mp increase) other
      have silent : margin? line = none := by
        rw [Option.eq_none_iff_forall_ne_some]
        intro request made
        obtain ⟨made, rfl | rfl⟩ := margin?_eq_some.mp made
        · exact increase made
        · exact decrease made
      rw [silent, Option.toList_none, List.append_nil]
      exact account.keep (congrArg List.length same) reported

/-! ### Documents -/

theorem Session.accounts (session : Session options {} turns after) :
    after.Accounts (margins turns) := by
  refine session.end_induction (motive := fun turns state => state.Accounts (margins turns))
    accounts_empty fun turns between line rest account => ?_
  rw [margins_append_turn]
  exact account.step options line rest

/-- The account of margins of a page, behind all of its lines and, more generally, behind every
session. The decreases of the margin that are reported as unmatched are as many as the decreases
exceed the increases at most, over all that was requested up to some time. The open regions are one
more than the increases, less the decreases that were not reported, so there is always one. -/
theorem margin_account (options : Options) :
    (∀ name text, let ran := run options {} (.ofText name text)
      (convert options (.ofText name text)).result = .ok ran.state.problems ∧
      Session options {} ran.turns ran.state) ∧
    ∀ turns state, Session options {} turns state →
      IsGreatest (excesses (margins turns)) (unmatched state.problems) ∧
      (state.nesting.toList.length : Int) =
        1 + (margins turns).count .marginIncrease - (margins turns).count .marginDecrease +
          unmatched state.problems ∧
      0 < state.nesting.toList.length := by
  constructor
  · intro name text ran
    have success : ran.failure = none := run_ofText options name text
    refine ⟨?_, run_session options {} _ success⟩
    rw [result_convert, show (run options {} (.ofText name text)).failure = none from success]
    rfl
  · intro turns state session
    obtain ⟨reported, depth⟩ := session.accounts
    have length : state.nesting.toList.length = state.nesting.outer.length + 1 := by
      simp [Nesting.toList]
    refine ⟨reported, ?_, by omega⟩
    unfold excess at depth
    omega

/-- Two decreases of the margin at the start, and one behind an increase. -/
theorem margin_account_decreases :
    let text := ".RE\n.RS\n.RE\n.RE\n.TP\nt\n".toList
    let ran := run {} {} (.ofText [] text)
    Session {} {} ran.turns ran.state ∧ unmatched ran.state.problems = 2 ∧
      IsGreatest (excesses (margins ran.turns)) 2 ∧ ran.state.nesting.toList.length = 1 := by
  intro text ran
  have session : Session {} {} ran.turns ran.state := ((margin_account {}).1 [] text).2
  obtain ⟨greatest, depth, -⟩ := (margin_account {}).2 _ _ session
  have reported : unmatched ran.state.problems = 2 := by decide +kernel
  have increases : (margins ran.turns).count .marginIncrease = 1 := by decide +kernel
  have decreases : (margins ran.turns).count .marginDecrease = 3 := by decide +kernel
  rw [reported] at greatest depth
  exact ⟨session, reported, greatest, by omega⟩

end ManPage.Document
