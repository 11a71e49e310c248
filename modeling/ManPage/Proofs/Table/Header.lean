import ManPage.Proofs.Text.Cut
import ManPage.Proofs.Text.Pieces
import ManPage.Table.Format
import Mathlib.Data.List.Induction

/-! What the header of a table says. Its lines of options centre the table and set its separator,
where a later line prevails; the others are rows of column formats. -/

namespace ManPage

namespace Table

open Text

variable {text options word tab after line : Text} {header : List Text} {format : Format} {c : Char}

/-! ### Words of options -/

def isBreak (c : Char) : Bool :=
  isBlank c || c == ','

theorem isBreak_eq_false (low : 65 ≤ c.toNat) (high : c.toNat ≤ 122) : isBreak c = false := by
  have comma : c ≠ ',' := by
    rintro rfl
    exact absurd low (by decide)
  simp only [isBreak, isBlank, Bool.or_eq_false_iff, Bool.and_eq_false_iff,
    decide_eq_false_iff_not, beq_eq_false_iff_ne]
  refine ⟨?_, comma⟩
  omega

theorem isBreak_toLower (c : Char) : isBreak c.toLower = isBreak c := by
  unfold Char.toLower
  split
  · rename_i upper
    have low : 65 ≤ c.toNat := upper.1
    have high : c.toNat ≤ 90 := upper.2
    have value : (c.val + 32).toNat = c.toNat + 32 := by
      rw [UInt32.toNat_add]
      exact Nat.mod_eq_of_lt (by show c.toNat + 32 < _; omega)
    rw [isBreak_eq_false low (by omega)]
    refine isBreak_eq_false ?_ ?_
    · show 65 ≤ (c.val + 32).toNat
      omega
    · show (c.val + 32).toNat ≤ 122
      omega
  · rfl

/-- A word stands among options, in letters of either case, between breaks or the ends. -/
def HasWord (word options : Text) : Prop :=
  ∃ before found after, options = before ++ found ++ after ∧ lower found = word ∧
    (∀ c ∈ before.getLast?, isBreak c) ∧ ∀ c ∈ after.head?, isBreak c

theorem mem_splitOnP_lower_iff (whole : word.all (!isBreak ·)) :
    word ∈ (lower options).splitOnP isBreak ↔ HasWord word options := by
  have plain : ∀ c ∈ word, isBreak c = false := by simpa using whole
  rw [mem_splitOnP_iff]
  constructor
  · rintro ⟨before, after, split, -, left, right⟩
    obtain ⟨front, after', rfl, front_, rfl⟩ := List.map_eq_append_iff.mp split
    obtain ⟨before', found, rfl, rfl, found_⟩ := List.map_eq_append_iff.mp front_
    refine ⟨before', found, after', rfl, found_, fun c mem => ?_, fun c mem => ?_⟩
    · rw [← isBreak_toLower]
      exact left _ (by rw [List.getLast?_map]; exact Option.mem_map_of_mem _ mem)
    · rw [← isBreak_toLower]
      exact right _ (by rw [List.head?_map]; exact Option.mem_map_of_mem _ mem)
  · rintro ⟨before, found, after, rfl, rfl, left, right⟩
    refine ⟨lower before, lower after, by simp [lower], plain, fun c mem => ?_, fun c mem => ?_⟩
    · rw [lower, List.getLast?_map] at mem
      obtain ⟨d, last, rfl⟩ := Option.map_eq_some_iff.mp mem
      rw [isBreak_toLower, left d last]
    · rw [lower, List.head?_map] at mem
      obtain ⟨d, first, rfl⟩ := Option.map_eq_some_iff.mp mem
      rw [isBreak_toLower, right d first]

/-- Options ask for a table in the centre. -/
def Centers (options : Text) : Prop :=
  HasWord "center".toList options ∨ HasWord "centre".toList options

theorem asksCentered_iff : asksCentered options ↔ Centers options := by
  have words : asksCentered options ↔ "center".toList ∈ (lower options).splitOnP isBreak ∨
      "centre".toList ∈ (lower options).splitOnP isBreak := by
    simp only [asksCentered, List.any_eq_true, Bool.or_eq_true, beq_iff_eq]
    constructor
    · rintro ⟨word, mem, rfl | rfl⟩
      · exact .inl mem
      · exact .inr mem
    · rintro (mem | mem)
      · exact ⟨_, mem, .inl rfl⟩
      · exact ⟨_, mem, .inr rfl⟩
  rw [words, mem_splitOnP_lower_iff (by decide), mem_splitOnP_lower_iff (by decide), Centers]

/-! ### The separator of options -/

/-- What the separator of options stands behind, in letters of either case. -/
def IsTab (text : Text) : Prop :=
  lower text = "tab(".toList

/-- Options give a separator: it stands behind their first `tab(`, and is closed. -/
def Gives (options : Text) (separator : Char) : Prop :=
  ∃ before tab after, options = before ++ tab ++ separator :: ')' :: after ∧ IsTab tab ∧
    ∀ before' tab' after', options = before' ++ tab' ++ after' → IsTab tab' →
      before.length ≤ before'.length

theorem IsTab.length (isTab : IsTab tab) : tab.length = 4 := by
  simpa [lower] using congrArg List.length isTab

theorem isPrefixOf_lower_iff :
    "tab(".toList.isPrefixOf (lower text) ↔ ∃ tab after, text = tab ++ after ∧ IsTab tab := by
  rw [List.isPrefixOf_iff_prefix]
  constructor
  · rintro ⟨rest, split⟩
    obtain ⟨tab, after, rfl, isTab, -⟩ := List.map_eq_append_iff.mp split.symm
    exact ⟨tab, after, rfl, isTab⟩
  · rintro ⟨tab, after, rfl, isTab⟩
    exact ⟨lower after, by rw [← isTab, lower, lower, lower, List.map_append]⟩

theorem gives_of_isTab (isTab : IsTab tab) :
    Gives (tab ++ after) c ↔ ∃ rest, after = c :: ')' :: rest := by
  constructor
  · rintro ⟨before, tab', rest, split, isTab', first⟩
    have empty : before = [] :=
      List.length_eq_zero_iff.mp (Nat.le_zero.mp (first [] tab after rfl isTab))
    rw [empty, List.nil_append] at split
    exact ⟨rest, (List.append_inj split (isTab.length.trans isTab'.length.symm)).2⟩
  · rintro ⟨rest, rfl⟩
    exact ⟨[], tab, rest, rfl, isTab, fun _ _ _ _ _ => Nat.zero_le _⟩

theorem gives_cons (other : ¬∃ tab after, c :: text = tab ++ after ∧ IsTab tab) {separator : Char} :
    Gives (c :: text) separator ↔ Gives text separator := by
  -- No `tab(` stands at the start, so each one stands in the rest.
  have later {before tab after : Text} (split : c :: text = before ++ tab ++ after)
      (isTab : IsTab tab) : ∃ rest, before = c :: rest ∧ text = rest ++ tab ++ after := by
    cases before with
    | nil => exact absurd ⟨tab, after, split, isTab⟩ other
    | cons d rest =>
      obtain ⟨rfl, split'⟩ := List.cons.inj split
      exact ⟨rest, rfl, split'⟩
  constructor
  · rintro ⟨before, tab, after, split, isTab, first⟩
    obtain ⟨rest, rfl, behind⟩ := later split isTab
    refine ⟨rest, tab, after, behind, isTab, fun before' tab' after' split' isTab' => ?_⟩
    exact Nat.le_of_succ_le_succ
      (first (c :: before') tab' after' (congrArg (c :: ·) split') isTab')
  · rintro ⟨before, tab, after, split, isTab, first⟩
    refine ⟨c :: before, tab, after, congrArg (c :: ·) split, isTab, ?_⟩
    intro before' tab' after' split' isTab'
    obtain ⟨rest, rfl, behind⟩ := later split' isTab'
    exact Nat.succ_le_succ (first rest tab' after' behind isTab')

theorem separator?_eq_some_iff : separator? options = some c ↔ Gives options c := by
  induction options with
  | nil =>
    refine ⟨(nomatch ·), ?_⟩
    rintro ⟨before, tab, after, split, -⟩
    simp at split
  | cons d options ih =>
    unfold separator?
    split
    · rename_i begins
      obtain ⟨tab, after, split, isTab⟩ := isPrefixOf_lower_iff.mp begins
      have behind : options.drop 3 = after := by
        have drop := congrArg (List.drop 4) split
        rwa [← isTab.length, List.drop_left, isTab.length] at drop
      rw [split, gives_of_isTab isTab, behind]
      split
      · simp
      · rename_i open_
        refine ⟨(nomatch ·), ?_⟩
        rintro ⟨rest, eq⟩
        exact absurd eq (open_ c rest)
    · rename_i other
      rw [ih, gives_cons (fun begins => other (isPrefixOf_lower_iff.mpr begins))]

/-! ### The lines of a header -/

/-- A line of options ends with a semicolon, apart from blanks. -/
def IsOptions (line options : Text) : Prop :=
  trimEnd line = options ++ [';']

/-- A line that is a row of column formats. -/
def isFormats (line : Text) : Bool :=
  (trimEnd line).getLast? != some ';'

/-- Some line of the header centres the table. -/
def Centered (header : List Text) : Prop :=
  ∃ line ∈ header, ∃ options, IsOptions line options ∧ Centers options

/-- The line sets the separator. -/
def Sets (line : Text) (separator : Char) : Prop :=
  ∃ options, IsOptions line options ∧ Gives options separator

/-- The separator that is in force behind a header: the one that was set last, or else a tab. -/
inductive InForce : List Text → Char → Prop
  | tab {header : List Text} (unset : ∀ line ∈ header, ∀ c, ¬Sets line c) : InForce header '\t'
  | set {before after : List Text} {line : Text} {c : Char} (sets : Sets line c)
      (last : ∀ line ∈ after, ∀ d, ¬Sets line d) : InForce (before ++ line :: after) c

/-- The format holds what the header says. -/
structure Holds (header : List Text) (format : Format) : Prop where
  centered : format.centered ↔ Centered header
  separator : InForce header format.separator
  rows : format.rows.length = header.countP isFormats

theorem isFormats_eq_false_iff : isFormats line = false ↔ ∃ options, IsOptions line options := by
  rw [isFormats, bne_eq_false_iff_eq, List.getLast?_eq_some_iff]
  rfl

theorem centered_concat :
    Centered (header ++ [line]) ↔
      Centered header ∨ ∃ options, IsOptions line options ∧ Centers options := by
  simp [Centered, or_and_right, exists_or]

theorem sets_iff (isOptions : IsOptions line options) :
    Sets line c ↔ separator? options = some c := by
  rw [separator?_eq_some_iff]
  constructor
  · rintro ⟨options', isOptions', gives⟩
    rwa [← List.append_cancel_right (isOptions'.symm.trans isOptions)]
  · exact fun gives => ⟨options, isOptions, gives⟩

theorem Sets.unique {d : Char} (sets : Sets line c) (sets' : Sets line d) : c = d := by
  have isOptions := sets.choose_spec.1
  exact Option.some.inj (((sets_iff isOptions).mp sets).symm.trans ((sets_iff isOptions).mp sets'))

theorem inForce_concat : InForce (header ++ [line]) c ↔
    Sets line c ∨ (∀ d, ¬Sets line d) ∧ InForce header c := by
  constructor
  · intro inForce
    generalize lines : header ++ [line] = header' at inForce
    cases inForce with
    | tab unset =>
      subst lines
      have before : ∀ other ∈ header, ∀ c, ¬Sets other c :=
        fun other mem => unset other (List.mem_append_left _ mem)
      exact .inr ⟨unset line List.mem_concat_self, .tab before⟩
    | @set before after other c sets last =>
      rcases List.eq_nil_or_concat after with rfl | ⟨after', final, rfl⟩
      · obtain ⟨-, ends⟩ := List.append_inj' lines rfl
        obtain rfl : line = other := List.singleton_inj.mp ends
        exact .inl sets
      · rw [List.concat_eq_append] at last lines
        rw [← List.cons_append, ← List.append_assoc] at lines
        obtain ⟨rfl, ends⟩ := List.append_inj' lines rfl
        obtain rfl : line = final := List.singleton_inj.mp ends
        exact .inr ⟨last line List.mem_concat_self,
          .set sets fun other mem => last other (List.mem_append_left _ mem)⟩
  · rintro (sets | ⟨unset, inForce⟩)
    · exact .set sets fun _ mem => absurd mem List.not_mem_nil
    · have more {lines : List Text} (before : ∀ other ∈ lines, ∀ d, ¬Sets other d) :
          ∀ other ∈ lines ++ [line], ∀ d, ¬Sets other d :=
        List.forall_mem_append.mpr ⟨before, List.forall_mem_singleton.mpr unset⟩
      cases inForce with
      | tab others => exact .tab (more others)
      | set sets last =>
        rw [List.append_assoc, List.cons_append]
        exact .set sets (more last)

theorem InForce.unique {d : Char} (inForce : InForce header c) (inForce' : InForce header d) :
    c = d := by
  induction header using List.reverseRecOn with
  | nil =>
    have default {e : Char} (inForce : InForce [] e) : e = '\t' := by
      generalize lines : ([] : List Text) = header at inForce
      cases inForce with
      | tab => rfl
      | set => simp at lines
    rw [default inForce, default inForce']
  | append_singleton header line ih =>
    rcases inForce_concat.mp inForce with sets | ⟨unset, before⟩
    · rcases inForce_concat.mp inForce' with sets' | ⟨unset, -⟩
      · exact sets.unique sets'
      · exact absurd sets (unset c)
    · rcases inForce_concat.mp inForce' with sets | ⟨-, before'⟩
      · exact absurd sets (unset d)
      · exact ih before before'

namespace Holds

theorem nil : Holds [] {} :=
  ⟨by simp [Centered], .tab fun _ mem => absurd mem List.not_mem_nil, rfl⟩

theorem applyOptions (holds : Holds header format) (isOptions : IsOptions line options) :
    Holds (header ++ [line]) (format.applyOptions options) := by
  refine ⟨?_, ?_, ?_⟩
  · have only : (∃ options, IsOptions line options ∧ Centers options) ↔ Centers options := by
      refine ⟨?_, fun centers => ⟨options, isOptions, centers⟩⟩
      rintro ⟨options', isOptions', centers⟩
      rwa [← List.append_cancel_right (isOptions'.symm.trans isOptions)]
    rw [centered_concat, ← holds.centered, only, ← asksCentered_iff]
    simp [Format.applyOptions]
  · cases given : separator? options with
    | none =>
      have unset : ∀ d, ¬Sets line d := fun d => by simp [sets_iff isOptions, given]
      simpa [Format.applyOptions, given] using inForce_concat.mpr (.inr ⟨unset, holds.separator⟩)
    | some d =>
      have set : Sets line d := (sets_iff isOptions).mpr given
      simpa [Format.applyOptions, given] using inForce_concat.mpr (.inl set)
  · have not : isFormats line = false := isFormats_eq_false_iff.mpr ⟨options, isOptions⟩
    simpa [Format.applyOptions, not] using holds.rows

theorem pushRow (holds : Holds header format) (isFormats : isFormats line) (row : Text) :
    Holds (header ++ [line]) (format.pushRow row) := by
  have not : ∀ options, ¬IsOptions line options := by
    intro options isOptions
    rw [isFormats_eq_false_iff.mpr ⟨options, isOptions⟩] at isFormats
    cases isFormats
  have unset : ∀ d, ¬Sets line d := fun d sets => not _ sets.choose_spec.1
  refine ⟨?_, inForce_concat.mpr (.inr ⟨unset, holds.separator⟩), ?_⟩
  · rw [centered_concat, ← holds.centered]
    simp [not, Format.pushRow]
  · simp [isFormats, Format.pushRow, holds.rows]

theorem applyLine (holds : Holds header format) (line : Text) :
    Holds (header ++ [line]) (format.applyLine line) := by
  unfold Format.applyLine
  dsimp only
  split
  · rename_i options ends
    exact holds.applyOptions (before?_eq_some_iff.mp ends)
  · rename_i noEnd
    refine holds.pushRow ?_ _
    simpa [before?, isFormats] using noEnd

end Holds

/-- Going through the lines of a header yields the format that holds what they say. -/
theorem holds_foldl (header : List Text) : Holds header (header.foldl Format.applyLine {}) := by
  induction header using List.reverseRecOn with
  | nil => exact .nil
  | append_singleton header line ih =>
    rw [List.foldl_append]
    exact ih.applyLine line

end Table

end ManPage
