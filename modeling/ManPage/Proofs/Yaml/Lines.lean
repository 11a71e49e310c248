import ManPage.Yaml.Scalar
import Mathlib.Data.List.SplitBy

/-! The lines of YAML. A line ends with a line feed, a carriage return, or one of the breaks of
Unicode, as YAML 1.1 has it, and a line that is empty or indented goes on with what stands in the
line before it. -/

namespace ManPage.Yaml

/-- The lines of a text, each with the break that ends it. -/
def lines : Text → List Text
  | [] => []
  | c :: rest =>
    if isBreak c then [c] :: lines rest
    else
      match lines rest with
      | [] => [[c]]
      | line :: more => (c :: line) :: more

/-- A line that is empty, or indented. -/
def continues (line : Text) : Bool :=
  line.head?.any fun c => isSpace c || isBreak c

/-- Lines in groups, each of a line and of those that go on with it. -/
def blocks (lines : List Text) : List (List Text) :=
  lines.splitBy fun _ line => continues line

variable {text first start : Text} {b c : Char}

theorem lines_break (ends : isBreak b) (rest : Text) : lines (b :: rest) = [b] :: lines rest := by
  rw [lines, if_pos ends]

theorem flatten_lines (text : Text) : (lines text).flatten = text := by
  induction text with
  | nil => rfl
  | cons c rest ih =>
    rw [lines]
    split
    · rw [List.flatten_cons, ih]
      rfl
    · cases more : lines rest <;> simp_all

/-- A text that ends with a break is made of whole lines. -/
theorem lines_append (ends : ∀ c ∈ first.getLast?, isBreak c) (rest : Text) :
    lines (first ++ rest) = lines first ++ lines rest := by
  induction first with
  | nil => rfl
  | cons c first ih =>
    have tail : ∀ c ∈ first.getLast?, isBreak c := by
      intro d last
      exact ends d (by simp_all [List.getLast?_cons])
    by_cases ending : isBreak c
    · rw [List.cons_append, lines_break ending, lines_break ending, ih tail, List.cons_append]
    · have nonempty : first ≠ [] := by
        rintro rfl
        exact ending (ends c rfl)
      rw [List.cons_append, lines, if_neg ending, lines, if_neg ending, ih tail]
      cases more : lines first with
      | nil => exact absurd (by simpa [more] using (flatten_lines first).symm) nonempty
      | cons line more => rfl

/-- What stands before the first break is in the first line. -/
theorem lines_start (unbroken : ∀ c ∈ start, isBreak c = false) (nonempty : text ≠ []) :
    ∃ line more, lines text = line :: more ∧ lines (start ++ text) = (start ++ line) :: more := by
  induction start with
  | nil =>
    cases split : lines text with
    | nil => exact absurd (by simpa [split] using (flatten_lines text).symm) nonempty
    | cons line more => exact ⟨line, more, rfl, by rw [List.nil_append, split]; rfl⟩
  | cons c start ih =>
    obtain ⟨line, more, split, join⟩ :=
      ih fun d inside => unbroken d (List.mem_cons_of_mem c inside)
    refine ⟨line, more, split, ?_⟩
    rw [List.cons_append, lines, if_neg (by simp [unbroken c]), join]
    rfl

/-- The first line begins as the text does. -/
theorem head?_lines (text : Text) :
    ((lines text).head?.bind fun line => line.head?) = text.head? := by
  cases text with
  | nil => rfl
  | cons c rest =>
    rw [lines]
    split
    · rfl
    · cases lines rest <;> rfl

/-! ### Texts whose lines go on with the first -/

/-- A text in which no line but the first begins at the margin. -/
def StaysIndented (text : Text) : Prop :=
  text.IsChain fun c next => isBreak c → isSpace next || isBreak next

theorem staysIndented_cons : StaysIndented (c :: text) ↔
    (isBreak c → ∀ d ∈ text.head?, isSpace d || isBreak d) ∧ StaysIndented text := by
  unfold StaysIndented
  rw [List.isChain_cons]
  exact and_congr_left fun _ =>
    ⟨fun h ends d next => h d next ends, fun h d next ends => h ends d next⟩

theorem StaysIndented.continues (stays : StaysIndented text) :
    ∀ line ∈ (lines text).tail, continues line := by
  induction text with
  | nil => simp [lines]
  | cons c rest ih =>
    obtain ⟨next, rest_stays⟩ := staysIndented_cons.mp stays
    by_cases ending : isBreak c
    · -- The line that begins behind the break is the first line of what is left.
      rw [lines_break ending, List.tail_cons]
      intro line inside
      cases split : lines rest with
      | nil => simp [split] at inside
      | cons first more =>
        rw [split] at inside
        cases inside with
        | head =>
          have head : line.head? = rest.head? := by simpa [split] using head?_lines rest
          rw [Yaml.continues, head]
          cases rest with
          | nil => simp [lines] at split
          | cons d rest => exact next ending d rfl
        | tail _ inside => exact ih rest_stays line (by rwa [split])
    · rw [lines, if_neg ending]
      cases split : lines rest with
      | nil => simp
      | cons first more => simpa [split] using ih rest_stays

theorem StaysIndented.append_unbroken (unbroken : ∀ c ∈ start, isBreak c = false)
    (stays : StaysIndented text) : StaysIndented (start ++ text) := by
  induction start with
  | nil => exact stays
  | cons c start ih =>
    refine staysIndented_cons.mpr ⟨fun ending => ?_, ih fun d h => unbroken d (by simp [h])⟩
    simp [unbroken c] at ending

theorem not_isBreak_of_isSpace (space : isSpace c) : isBreak c = false := by
  obtain rfl : c = ' ' := by simpa [isSpace] using space
  rfl

theorem isSpace_of_mem_indent (inside : c ∈ indent) : isSpace c := by
  obtain rfl : c = ' ' := by simpa [indent] using inside
  rfl

theorem mem_margin {atStart : Bool} (inside : c ∈ if atStart then indent else []) : c ∈ indent := by
  cases atStart <;> simp_all

/-- A text that stays indented, from its first line on if `atStart` tells that it begins one. -/
def IndentsFrom (atStart : Bool) (text : Text) : Prop :=
  (atStart → ∀ c ∈ text.head?, isSpace c || isBreak c) ∧ StaysIndented text

namespace IndentsFrom

variable {atStart : Bool} {rest : Text}

theorem cons_break (ends : isBreak b) (indents : IndentsFrom true rest) :
    IndentsFrom atStart (b :: rest) := by
  refine ⟨fun _ d head => ?_, staysIndented_cons.mpr ⟨fun _ => indents.1 rfl, indents.2⟩⟩
  obtain rfl : b = d := by simpa using head
  simp [ends]

theorem append_margin (start : Text) (unbroken : ∀ c ∈ start, isBreak c = false)
    (indents : IndentsFrom false rest) :
    IndentsFrom atStart ((if atStart then indent else []) ++ (start ++ rest)) := by
  constructor
  · rintro rfl d head
    obtain rfl : ' ' = d := by simpa [indent] using head
    rfl
  · exact StaysIndented.append_unbroken
      (fun c inside => not_isBreak_of_isSpace (isSpace_of_mem_indent (mem_margin inside)))
      (StaysIndented.append_unbroken unbroken indents.2)

end IndentsFrom

/-! ### Blocks of lines -/

/-- Lines that are each followed by lines that go on with it are the blocks of their sequence. -/
theorem blocks_flatten {groups : List (List Text)}
    (form : ∀ group ∈ groups, ∃ first more, group = first :: more ∧ continues first = false ∧
      ∀ line ∈ more, continues line) : blocks groups.flatten = groups := by
  apply List.splitBy_flatten
  · intro empty
    obtain ⟨first, more, eq, -⟩ := form [] empty
    simp at eq
  · intro group inside
    obtain ⟨first, more, rfl, -, go_on⟩ := form group inside
    exact (List.pairwise_cons.mpr ⟨fun line inside => go_on line inside,
      List.pairwise_of_forall_mem_list fun _ _ line inside => go_on line inside⟩).isChain
  · apply List.Pairwise.isChain
    apply List.pairwise_of_forall_mem_list
    intro before inside after inside'
    obtain ⟨first, more, rfl, -⟩ := form before inside
    obtain ⟨first', more', rfl, margin, -⟩ := form after inside'
    exact ⟨by simp, by simp, by simpa using margin⟩

end ManPage.Yaml
