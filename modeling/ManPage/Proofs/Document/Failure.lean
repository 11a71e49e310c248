import ManPage.Proofs.Document.Effect
import ManPage.Proofs.Nesting

/-! What a step that fails leaves behind. A failure comes from a line that the step reads ahead, and
by then it has done at most one thing: to enter the region of the entry that its line begins. The
document stays as it was exactly if that region was the current one already. -/

namespace ManPage.Document

open Effect

/-- The region of the entry that a request begins. -/
def entryRegionOf? (request : Request) (args : List Text) : Option Region :=
  match request with
  | .term => some .definitions
  | .indentedParagraph => if args.head?.any bullets.contains then some .bullets else none
  | _ => none

/-- The region of the entry that a line begins. -/
def entryRegion? (line : Text) : Option Region :=
  match Line.classify line with
  | .request name args => (Request.ofName? name).bind fun request => entryRegionOf? request args
  | _ => none

variable {options : Options} {state : State} {input : Input} {line : Text} {request : Request}
  {args : List Text} {region : Region} {error : ReadError} {entered : Option Region}

/-! ### The lines that fail -/

theorem entered_ofOutcome {α : Type} {before : Option Region} {effect : α → Effect}
    {outcome : Except ReadError α × Input} (other : ∀ value, effect value ≠ .fault error entered)
    (fault : (ofOutcome before effect outcome).1 = .fault error entered) : entered = before := by
  rcases outcome with ⟨failure | value, rest⟩
  · cases fault
    rfl
  · exact absurd fault (other value)

theorem ofPiece_ne_fault (piece : Option Text) : ofPiece piece ≠ .fault error entered := by
  cases piece <;> exact Effect.noConfusion

theorem entered_ofRequest (fault : (ofRequest request args input).1 = .fault error entered) :
    entered = entryRegionOf? request args := by
  cases request with
  | heading level =>
    exact entered_ofOutcome (fun text? => by cases text? <;> exact Effect.noConfusion) fault
  | indentedParagraph =>
    unfold ofRequest at fault
    unfold entryRegionOf?
    dsimp only at fault ⊢
    by_cases bullet : args.head?.any bullets.contains = true
    · rw [if_pos bullet] at fault ⊢
      exact entered_ofOutcome (fun _ => Effect.noConfusion) fault
    · rw [if_neg bullet] at fault
      cases fault
  | term => exact entered_ofOutcome (fun _ => Effect.noConfusion) fault
  | font font => exact entered_ofOutcome ofPiece_ne_fault fault
  | skippedBlock => exact entered_ofOutcome ofPiece_ne_fault fault
  | table => exact entered_ofOutcome (fun _ => Effect.noConfusion) fault
  | _ => cases fault

/-- A line that fails has entered the region of its entry, and no other. -/
theorem entered_ofLine (fault : (ofLine line input).1 = .fault error entered) :
    entered = entryRegion? line := by
  unfold ofLine at fault
  unfold entryRegion?
  cases class_ : Line.classify line with
  | request name args =>
    rw [class_] at fault
    dsimp only at fault ⊢
    cases known : Request.ofName? name with
    | none =>
      rw [known] at fault
      cases fault
    | some request =>
      rw [known] at fault
      exact entered_ofRequest fault
  | _ =>
    rw [class_] at fault
    cases fault

/-! ### The lines that begin entries -/

/-- The markup in front of the text of an entry. -/
def entryStart : Region → Text
  | .paragraph => []
  | .definitions => "<dt>".toList
  | .bullets => "<li>".toList

/-- The markup behind the text of an entry. -/
def entryStop : Region → Text
  | .definitions => "</dt><dd>".toList
  | _ => []

theorem ofRequest_of_entryRegionOf? (begins : entryRegionOf? request args = some region)
    (input : Input) : ofRequest request args input =
      ofOutcome (some region)
        (fun html => .entry region (entryStart region) (html.getD []) (entryStop region))
        (readEntry input).outcome := by
  unfold entryRegionOf? at begins
  split at begins
  · cases begins
    rfl
  · obtain ⟨bullet, eq⟩ := Option.ite_none_right_eq_some.mp begins
    cases eq
    exact if_pos bullet
  · cases begins

theorem ofLine_of_entryRegion? (begins : entryRegion? line = some region) (input : Input) :
    ofLine line input =
      ofOutcome (some region)
        (fun html => .entry region (entryStart region) (html.getD []) (entryStop region))
        (readEntry input).outcome := by
  unfold entryRegion? at begins
  cases class_ : Line.classify line with
  | request name args =>
    rw [class_] at begins
    obtain ⟨request, known, begins⟩ := Option.bind_eq_some_iff.mp begins
    rw [ofLine_of_makes class_ known, ofRequest_of_entryRegionOf? begins]
  | _ =>
    rw [class_] at begins
    cases begins

/-- The entry of a region that is the current one stands behind its separator. -/
theorem separator_of_entry {output : Option Text} (begins : entryRegion? line = some region)
    (open_ : state.nesting.current = region)
    (ok : (step options state line input).output = .ok output) :
    ∃ html, output = some (region.separator ++ html) := by
  have does := (step_does options state line input).output
  rw [ok, ofLine_of_entryRegion? begins] at does
  rcases read : (readEntry input).outcome with ⟨failure | html, rest⟩
  · rw [read] at does
    cases does
  · rw [read, ofOutcome, Effect.output, Nesting.enterEntry, if_pos open_] at does
    cases does
    exact ⟨_, by rw [List.append_assoc, List.append_assoc]⟩

/-! ### The document behind a failure -/

theorem enterEntry_eq_self_iff {nesting : Nesting} :
    (nesting.enterEntry region).2 = nesting ↔ nesting.current = region := by
  unfold Nesting.enterEntry
  split
  · exact iff_of_true rfl ‹_›
  · exact iff_of_false (fun same => absurd (congrArg Nesting.current same).symm ‹_›) ‹_›

theorem current_enterEntry (nesting : Nesting) (region : Region) :
    (nesting.enterEntry region).2.current = region := by
  rw [Nesting.enterEntry_snd]
  rfl

theorem with_nesting_eq_self_iff {nesting : Nesting} :
    { state with nesting } = state ↔ nesting = state.nesting :=
  ⟨congrArg State.nesting, fun same => by rw [same]⟩

/-- A step that fails has at most entered the region of the entry that its line begins. So it leaves
the document as it was exactly if that region was the current one; otherwise the next entry of the
region stands behind a separator, although no markup has opened the region. -/
theorem step_failed (failed : (step options state line input).output = .error error) :
    let left := (step options state line input).state
    left = { state with nesting := (entryRegion? line).elim state.nesting fun region =>
        (state.nesting.enterEntry region).2 } ∧
      (left = state ↔ ∀ region, entryRegion? line = some region →
        state.nesting.current = region) ∧
      ∀ region, entryRegion? line = some region → ∀ next page output,
        entryRegion? next = some region → (step options left next page).output = .ok output →
          ∃ html, output = some (region.separator ++ html) := by
  intro left
  have does := step_does options state line input
  obtain ⟨entered, fault⟩ := output_eq_error_iff.mp (does.output.symm.trans failed)
  have made : left = { state with nesting := (entryRegion? line).elim state.nesting fun region =>
      (state.nesting.enterEntry region).2 } := by
    refine does.state.trans ?_
    rw [← entered_ofLine fault, fault, apply_of_cause? rfl]
    cases entered <;> rfl
  refine ⟨made, ?_, fun region begins next page output again ok => ?_⟩
  · rw [made, with_nesting_eq_self_iff]
    cases entryRegion? line with
    | none => simp
    | some region => simpa using enterEntry_eq_self_iff
  · refine separator_of_entry again ?_ ok
    rw [made, begins]
    exact current_enterEntry _ _

theorem step_failed_term :
    let page : Input := { name := "a.1".toList, unread := [.fault .notUtf8] }
    let left := (step {} {} ".TP".toList page).state
    (step {} {} ".TP".toList page).output = .error .notUtf8 ∧ left ≠ {} ∧
      (step {} left ".TP".toList { page with unread := [.text "x".toList] }).output =
        .ok (some "</dd><dt>x</dt><dd>".toList) := by
  intro page left
  have failed : (step {} {} ".TP".toList page).output = .error .notUtf8 := by rfl
  have begins : entryRegion? ".TP".toList = some .definitions := by decide +kernel
  refine ⟨failed, fun same => ?_, by rfl⟩
  exact absurd ((step_failed failed).2.1.mp same _ begins) (by decide)

/-- A term in front of a line that is not UTF-8, with another term behind it. The conversion fails
while it is at the first term, and puts out nothing, but the document is in a list then; and where
it goes on with the lines that are left, it closes an entry that no markup began. -/
theorem not_step_failed_unchanged :
    let page := Input.ofBytes ['p'] [46, 84, 80, 10, 255, 10, 46, 84, 80, 10, 120, 10]
    let failed := run {} {} page
    ((convert {} page).result = .error .notUtf8 ∧ (convert {} page).html = [] ∧
      failed.turns.map Turn.line = [".TP".toList] ∧ failed.state ≠ {} ∧
      (run {} failed.state failed.input).chunks = ["</dd><dt>x</dt><dd>".toList]) ∧
    ¬∀ (options : Options) (state : State) (line : Text) (input : Input) (error : ReadError),
      (step options state line input).output = .error error →
        (step options state line input).state = state := by
  intro page failed
  have failure : failed.failure = some .notUtf8 := by decide +kernel
  have result : (convert {} page).result = .error .notUtf8 := by
    rw [result_convert, failure]
    rfl
  refine ⟨⟨result, ?_⟩, fun unchanged => ?_⟩
  · decide +kernel
  · have same := unchanged {} {} ".TP".toList { name := [], unread := [.fault .notUtf8] } .notUtf8
      (by rfl)
    exact absurd same (by decide +kernel)

end ManPage.Document
