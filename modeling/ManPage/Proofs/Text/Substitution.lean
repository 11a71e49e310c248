import Mathlib.Data.List.Find
import ManPage.Proofs.Text.Scan

/-! What a substitution keeps of a text: the marks that its finder never answers and what stands
behind them, the texts that begin in no answer, and, where a finder answers some stretches by
themselves, as much as a finder that leaves them out. -/

namespace ManPage.Text

variable {find : Finder Text} {mark : Char}

/-- A finder that answers at no position of a text leaves it as it is. -/
theorem substitute_eq_self {text : Text} (silent : ∀ c s, c :: s <:+ text → find (c :: s) = none) :
    substitute find text = text := by
  have same : substitute find (text ++ []) = text ++ substitute find [] := by
    refine substitute_append fun c s suffix => ?_
    rw [List.append_nil]
    exact silent c s suffix
  rwa [List.append_nil, substitute_nil, List.append_nil] at same

theorem substitute_eq_self_of_not_mem {text : Text}
    (begins : ∀ c rest, c ≠ mark → find (c :: rest) = none) (plain : mark ∉ text) :
    substitute find text = text :=
  substitute_eq_self fun c s suffix =>
    begins c s fun eq => plain (eq ▸ suffix.subset List.mem_cons_self)

/-- Two texts are substituted apart if the finder answers for any text as it does in front of the
second. -/
theorem substitute_append_of_cut {second : Text}
    (cut : ∀ c s, find (c :: s ++ second) = find (c :: s))
    (within : ∀ c s found width, find (c :: s) = some (found, width) → width ≤ s.length + 1)
    (first : Text) :
    substitute find (first ++ second) = substitute find first ++ substitute find second := by
  induction first using scan_induction find with
  | nil => rfl
  | skip c s h ih =>
    have same : find (c :: (s ++ second)) = none := (cut c s).trans h
    rw [substitute_of_none h, List.cons_append, substitute_of_none same, ih, List.cons_append]
  | hit c s found width h ih =>
    have same : find (c :: (s ++ second)) = some (found, width) := (cut c s).trans h
    have inside : width - 1 ≤ s.length := Nat.sub_le_of_le_add (within c s found width h)
    rw [substitute_of_some h, List.cons_append, substitute_of_some same,
      List.drop_append_of_le_length inside, ih, List.append_assoc]

/-- What begins a text after a substitution, and no answer, begins the text before it. -/
theorem split_of_prefix_substitute {start later text : Text}
    (foreign : ∀ s found width, find s = some (found, width) →
      ∃ c rest, found = c :: rest ∧ c ∉ start)
    (begins : start ++ later <+: substitute find text) :
    ∃ rest, text = start ++ rest ∧ later <+: substitute find rest := by
  induction start generalizing text with
  | nil => exact ⟨text, rfl, begins⟩
  | cons a start ih =>
    have foreign' : ∀ s found width, find s = some (found, width) →
        ∃ c rest, found = c :: rest ∧ c ∉ start := by
      intro s found width h
      obtain ⟨c, rest, eq, outside⟩ := foreign s found width h
      exact ⟨c, rest, eq, fun mem => outside (List.mem_cons_of_mem a mem)⟩
    cases text with
    | nil => exact absurd (List.prefix_nil.mp begins) (List.cons_ne_nil _ _)
    | cons c rest =>
      cases h : find (c :: rest) with
      | none =>
        rw [substitute_of_none h, List.cons_append, List.cons_prefix_cons] at begins
        obtain ⟨rfl, begins⟩ := begins
        obtain ⟨behind, split, ends⟩ := ih foreign' begins
        exact ⟨behind, by rw [split, List.cons_append], ends⟩
      | some answer =>
        obtain ⟨found, width⟩ := answer
        obtain ⟨d, found', rfl, outside⟩ := foreign _ _ _ h
        rw [substitute_of_some h, List.cons_append, List.cons_append, List.cons_prefix_cons]
          at begins
        exact absurd begins.1 fun eq => outside (eq ▸ List.mem_cons_self)

theorem prefix_of_prefix_substitute {start text : Text}
    (foreign : ∀ s found width, find s = some (found, width) →
      ∃ c rest, found = c :: rest ∧ c ∉ start)
    (begins : start <+: substitute find text) : start <+: text := by
  rw [← List.append_nil start] at begins
  obtain ⟨rest, rfl, -⟩ := split_of_prefix_substitute foreign begins
  exact List.prefix_append start rest

/-- What begins two texts in a row begins the first one, if it does not hold, behind its first
character, the one that the second begins with. -/
theorem prefix_append_iff {start text rest : Text} (nonempty : text ≠ [])
    (outside : ∀ c ∈ rest.head?, c ∉ start.tail) : start <+: text ++ rest ↔ start <+: text := by
  refine ⟨fun begins => ?_, fun begins => begins.trans (List.prefix_append text rest)⟩
  rcases List.prefix_or_prefix_of_prefix begins (List.prefix_append text rest) with
    inside | ⟨reaching, rfl⟩
  · exact inside
  · obtain ⟨a, text, rfl⟩ := List.exists_cons_of_ne_nil nonempty
    cases reaching with
    | nil => simp
    | cons c reaching =>
      rw [List.prefix_append_right_inj] at begins
      obtain ⟨rest', rfl⟩ := begins
      exact absurd (by simp) (outside c rfl)

theorem suffix_of_suffix_append {after front back : Text} (outside : mark ∉ front)
    (ends : mark :: after <:+ front ++ back) : mark :: after <:+ back := by
  induction front with
  | nil => exact ends
  | cons c front ih =>
    rw [List.mem_cons, not_or] at outside
    rcases List.suffix_cons_iff.mp ends with eq | inside
    · exact absurd (List.cons.inj eq).1 outside.1
    · exact ih outside.2 inside

/-- A mark that no answer holds comes from the text, and so does what is behind it. -/
theorem suffix_of_suffix_substitute {after text : Text}
    (foreign : ∀ s found width, find s = some (found, width) → mark ∉ found)
    (ends : mark :: after <:+ substitute find text) :
    ∃ rest, mark :: rest <:+ text ∧ find (mark :: rest) = none ∧ after = substitute find rest := by
  induction text using scan_induction find with
  | nil => exact absurd (List.suffix_nil.mp ends) (List.cons_ne_nil _ _)
  | skip c rest h ih =>
    rw [substitute_of_none h, List.suffix_cons_iff] at ends
    rcases ends with eq | inside
    · cases eq
      exact ⟨rest, List.suffix_refl _, h, rfl⟩
    · obtain ⟨rest', suffix, later⟩ := ih inside
      exact ⟨rest', suffix.trans (List.suffix_cons c rest), later⟩
  | hit c rest found width h ih =>
    rw [substitute_of_some h] at ends
    obtain ⟨rest', suffix, later⟩ := ih (suffix_of_suffix_append (foreign _ _ _ h) ends)
    exact ⟨rest', suffix.trans ((List.drop_suffix _ rest).trans (List.suffix_cons c rest)), later⟩

theorem not_mem_substitute {text : Text}
    (foreign : ∀ s found width, find s = some (found, width) → mark ∉ found)
    (plain : mark ∉ text) : mark ∉ substitute find text := by
  intro mem
  obtain ⟨front, back, eq⟩ := List.append_of_mem mem
  obtain ⟨rest, suffix, -⟩ := suffix_of_suffix_substitute foreign ⟨front, eq.symm⟩
  exact plain (suffix.subset List.mem_cons_self)

/-- A scan of the text comes to each mark in it: no stretch that the finder answers for holds one
behind its first character. -/
def Visits (find : Finder Text) (mark : Char) (text : Text) : Prop :=
  ∀ c s found width, c :: s <:+ text → find (c :: s) = some (found, width) →
    mark ∉ s.take (width - 1)

theorem Visits.of_suffix {text text' : Text} (visits : Visits find mark text)
    (suffix : text' <:+ text) : Visits find mark text' :=
  fun c s found width ends => visits c s found width (ends.trans suffix)

theorem Visits.suffix_substitute {rest text : Text} (visits : Visits find mark text)
    (ends : mark :: rest <:+ text) : substitute find (mark :: rest) <:+ substitute find text := by
  induction text using scan_induction find with
  | nil => exact absurd (List.suffix_nil.mp ends) (List.cons_ne_nil _ _)
  | skip c s h ih =>
    rcases List.suffix_cons_iff.mp ends with eq | inside
    · exact eq ▸ List.suffix_refl _
    · rw [substitute_of_none h]
      exact (ih (visits.of_suffix (List.suffix_cons c s)) inside).trans (List.suffix_cons c _)
  | hit c s found width h ih =>
    rcases List.suffix_cons_iff.mp ends with eq | inside
    · exact eq ▸ List.suffix_refl _
    · rw [substitute_of_some h]
      rw [← List.take_append_drop (width - 1) s] at inside
      have behind := suffix_of_suffix_append (visits _ _ _ _ (List.suffix_refl _) h) inside
      have left := (List.drop_suffix (width - 1) s).trans (List.suffix_cons c s)
      exact (ih (visits.of_suffix left) behind).trans (List.suffix_append found _)

/-! ### Counting marks -/

/-- The answers of a finder hold no more marks than the stretches that it answers for. -/
def Spares (mark : Char) (find : Finder Text) : Prop :=
  ∀ c s found width, find (c :: s) = some (found, width) →
    found.count mark ≤ (c :: s.take (width - 1)).count mark

theorem count_stretch (c : Char) (s : Text) (n : Nat) :
    (c :: s).count mark = (c :: s.take n).count mark + (s.drop n).count mark := by
  rw [← List.count_append, List.cons_append, List.take_append_drop]

theorem Spares.count_le (spares : Spares mark find) (text : Text) :
    (substitute find text).count mark ≤ text.count mark := by
  induction text using scan_induction find with
  | nil => exact Nat.le_refl _
  | skip c s h ih =>
    rw [substitute_of_none h, List.count_cons, List.count_cons]
    omega
  | hit c s found width h ih =>
    have stretch := spares c s found width h
    rw [substitute_of_some h, List.count_append, count_stretch c s (width - 1)]
    omega

/-- A mark that a scan comes to is lost if the answer there holds none. -/
theorem Spares.count_lt (spares : Spares mark find) {rest text found : Text} {width : Nat}
    (visits : Visits find mark text) (ends : mark :: rest <:+ text)
    (answer : find (mark :: rest) = some (found, width)) (outside : mark ∉ found) :
    (substitute find text).count mark < text.count mark := by
  induction text using scan_induction find with
  | nil => exact absurd (List.suffix_nil.mp ends) (List.cons_ne_nil _ _)
  | skip c s h ih =>
    rcases List.suffix_cons_iff.mp ends with eq | inside
    · rw [← eq, answer] at h
      cases h
    · have later := ih (visits.of_suffix (List.suffix_cons c s)) inside
      rw [substitute_of_none h, List.count_cons, List.count_cons]
      omega
  | hit c s found' width' h ih =>
    rw [substitute_of_some h, List.count_append, count_stretch c s (width' - 1)]
    rcases List.suffix_cons_iff.mp ends with eq | inside
    · rw [← eq, answer] at h
      cases h
      have later := spares.count_le (s.drop (width - 1))
      rw [List.count_eq_zero.mpr outside, ← (List.cons.inj eq).1, List.count_cons_self]
      omega
    · rw [← List.take_append_drop (width' - 1) s] at inside
      have behind := suffix_of_suffix_append (visits _ _ _ _ (List.suffix_refl _) h) inside
      have left := (List.drop_suffix (width' - 1) s).trans (List.suffix_cons c s)
      have later := ih (visits.of_suffix left) behind
      have stretch := spares c s found' width' h
      omega

/-- `sharp` answers like `find`, except where `find` answers a stretch of text by itself. -/
structure Sharpens (find sharp : Finder Text) : Prop where
  agree : ∀ c rest answer, sharp (c :: rest) = some answer → find (c :: rest) = some answer
  idle : ∀ c rest found width, find (c :: rest) = some (found, width) → sharp (c :: rest) = none →
    found = (c :: rest).take width ∧ 0 < width ∧
      ∀ d ∈ rest.take (width - 1), ∀ s, sharp (d :: s) = none

theorem Sharpens.substitute_eq {sharp : Finder Text} (sharpens : Sharpens find sharp)
    (text : Text) : substitute find text = substitute sharp text := by
  induction text using scan_induction find with
  | nil => rfl
  | skip c rest h ih =>
    have silent : sharp (c :: rest) = none := by
      refine Option.eq_none_iff_forall_ne_some.mpr fun answer eq => ?_
      cases h.symm.trans (sharpens.agree _ _ _ eq)
    rw [substitute_of_none h, substitute_of_none silent, ih]
  | hit c rest found width h ih =>
    rw [substitute_of_some h, ih]
    cases answers : sharp (c :: rest) with
    | some answer =>
      cases h.symm.trans (sharpens.agree _ _ _ answers)
      rw [substitute_of_some answers]
    | none =>
      obtain ⟨same, positive, silent⟩ := sharpens.idle _ _ _ _ h answers
      obtain ⟨n, rfl⟩ : ∃ n, width = n + 1 := ⟨width - 1, by omega⟩
      rw [Nat.add_sub_cancel] at silent ⊢
      have kept : substitute sharp (rest.take n ++ rest.drop n) =
          rest.take n ++ substitute sharp (rest.drop n) :=
        substitute_append fun d s suffix => silent d (suffix.subset List.mem_cons_self) _
      rw [List.take_append_drop] at kept
      rw [substitute_of_none answers, same, kept, List.take_succ_cons, List.cons_append]

/-! ### Words -/

/-- Finds the first of `words` that a text begins with, and answers what it stands for. -/
def wordAt (words : List (Text × Text)) : Finder Text := fun text =>
  (words.find? fun (word, _) => word.isPrefixOf text).map fun (word, meaning) =>
    (meaning, word.length)

variable {first later : List (Text × Text)} {words : List (Text × Text)} {text : Text}

theorem wordAt_eq_none_iff :
    wordAt words text = none ↔ ∀ entry ∈ words, ¬entry.1 <+: text := by
  simp [wordAt]

theorem wordAt_append :
    wordAt (first ++ later) text = (wordAt first text).or (wordAt later text) := by
  rw [wordAt, List.find?_append, Option.map_or]
  rfl

/-- No word reaches over a character that no word holds behind its first. -/
theorem wordAt_append_right {second : Text} (nonempty : text ≠ [])
    (outside : ∀ entry ∈ words, ∀ c ∈ second.head?, c ∉ entry.1.tail) :
    wordAt words (text ++ second) = wordAt words text := by
  have same : ∀ entry ∈ words, entry.1.isPrefixOf (text ++ second) = entry.1.isPrefixOf text := by
    intro entry mem
    rw [Bool.eq_iff_iff, List.isPrefixOf_iff_prefix, List.isPrefixOf_iff_prefix]
    exact prefix_append_iff nonempty (outside entry mem)
  rw [wordAt, wordAt, List.find?_congr same]

theorem mem_of_wordAt {meaning : Text} {width : Nat}
    (found : wordAt words text = some (meaning, width)) :
    ∃ word, (word, meaning) ∈ words ∧ word <+: text ∧ width = word.length := by
  obtain ⟨⟨word, _⟩, entry, eq⟩ := Option.map_eq_some_iff.mp found
  cases eq
  exact ⟨word, List.mem_of_find?_eq_some entry, by simpa using List.find?_some entry, rfl⟩

/-- A text that begins with a word has what the word stands for, if no word begins another. -/
theorem wordAt_of_mem {word meaning : Text} (rest : Text)
    (distinct : ∀ a ∈ words, ∀ b ∈ words, a.1 <+: b.1 → a = b) (entry : (word, meaning) ∈ words) :
    wordAt words (word ++ rest) = some (meaning, word.length) := by
  cases found : wordAt words (word ++ rest) with
  | none => exact absurd (List.prefix_append word rest) (wordAt_eq_none_iff.mp found _ entry)
  | some answer =>
    obtain ⟨meaning', width⟩ := answer
    obtain ⟨word', entry', begins, rfl⟩ := mem_of_wordAt found
    rcases List.prefix_or_prefix_of_prefix begins (List.prefix_append word rest) with h | h
    · cases distinct _ entry' _ entry h
      rfl
    · cases distinct _ entry _ entry' h
      rfl

theorem substitute_word {word meaning : Text} (rest : Text)
    (distinct : ∀ a ∈ words, ∀ b ∈ words, a.1 <+: b.1 → a = b) (entry : (word, meaning) ∈ words)
    (nonempty : word ≠ []) :
    substitute (wordAt words) (word ++ rest) = meaning ++ substitute (wordAt words) rest := by
  obtain ⟨c, word, rfl⟩ := List.exists_cons_of_ne_nil nonempty
  have found := wordAt_of_mem rest distinct entry
  rw [List.cons_append] at found ⊢
  rw [substitute_of_some found, List.length_cons, Nat.add_sub_cancel, List.drop_left]

/-- No character of `chars` stands in a text. -/
def avoids (chars text : Text) : Bool :=
  chars.all fun c => !text.contains c

theorem avoids_iff {chars text : Text} : avoids chars text ↔ ∀ c ∈ chars, c ∉ text := by
  simp [avoids]

/-- The words of two lists can be replaced in turn: no word of one begins a word of the other or,
for those replaced first, begins inside one; and what these stand for begins with no character of a
word replaced later, and no such word begins inside it. -/
structure InTurn (first later : List (Text × Text)) : Prop where
  positive : ∀ a ∈ first ++ later, a.1 ≠ []
  distinct : ∀ a ∈ later, ∀ b ∈ later, a.1 <+: b.1 → a = b
  apart : ∀ a ∈ first, ∀ b ∈ later, ¬a.1 <+: b.1 ∧ ¬b.1 <+: a.1
  inside : ∀ a ∈ first, ∀ b ∈ later, avoids (a.1.take 1) b.1.tail
  ahead : ∀ a ∈ first, a.2 ≠ [] ∧ ∀ b ∈ later, avoids (a.2.take 1) b.1
  within : ∀ a ∈ first, ∀ b ∈ later, avoids (b.1.take 1) a.2

section InTurn

variable (turn : InTurn first later) {entry : Text × Text} (rest : Text)

include turn

theorem InTurn.foreign (mem : entry ∈ later) (s found : Text) (width : Nat)
    (answer : wordAt first s = some (found, width)) :
    ∃ c rest, found = c :: rest ∧ c ∉ entry.1 := by
  obtain ⟨word, earlier, -⟩ := mem_of_wordAt answer
  obtain ⟨nonempty, outside⟩ := turn.ahead _ earlier
  obtain ⟨c, rest, rfl⟩ := List.exists_cons_of_ne_nil nonempty
  exact ⟨c, rest, rfl, avoids_iff.mp (outside _ mem) c List.mem_cons_self⟩

/-- A word that is replaced later stays until then. -/
theorem InTurn.kept (mem : entry ∈ later) :
    substitute (wordAt first) (entry.1 ++ rest) = entry.1 ++ substitute (wordAt first) rest := by
  refine substitute_append fun c s suffix => wordAt_eq_none_iff.mpr fun a earlier begins => ?_
  have nonempty : a.1 ≠ [] := turn.positive a (List.mem_append_left later earlier)
  obtain ⟨d, word, eq⟩ := List.exists_cons_of_ne_nil nonempty
  have head : d = c := (List.cons_prefix_cons.mp (eq ▸ begins)).1
  obtain ⟨front, split⟩ := suffix
  cases front with
  | nil =>
    rw [List.nil_append] at split
    rw [split] at begins
    have apart := turn.apart a earlier entry mem
    exact (List.prefix_or_prefix_of_prefix begins (List.prefix_append _ rest)).elim apart.1 apart.2
  | cons e front =>
    refine avoids_iff.mp (turn.inside a earlier entry mem) d (by simp [eq]) ?_
    rw [← split, head]
    simp

/-- What a word stands for holds nothing that is replaced later. -/
theorem InTurn.idle (mem : entry ∈ first) :
    substitute (wordAt later) (entry.2 ++ rest) = entry.2 ++ substitute (wordAt later) rest := by
  refine substitute_append fun c s suffix => wordAt_eq_none_iff.mpr fun b next begins => ?_
  have nonempty : b.1 ≠ [] := turn.positive b (List.mem_append_right first next)
  obtain ⟨d, word, eq⟩ := List.exists_cons_of_ne_nil nonempty
  have head : d = c := (List.cons_prefix_cons.mp (eq ▸ begins)).1
  refine avoids_iff.mp (turn.within entry mem b next) d (by simp [eq]) ?_
  exact suffix.subset (head ▸ List.mem_cons_self)

theorem InTurn.distinct_append (distinct : ∀ a ∈ first, ∀ b ∈ first, a.1 <+: b.1 → a = b) :
    ∀ a ∈ first ++ later, ∀ b ∈ first ++ later, a.1 <+: b.1 → a = b := by
  intro a ha b hb begins
  rcases List.mem_append.mp ha with ha | ha <;> rcases List.mem_append.mp hb with hb | hb
  · exact distinct a ha b hb begins
  · exact absurd begins (turn.apart a ha b hb).1
  · exact absurd begins (turn.apart b hb a ha).2
  · exact turn.distinct a ha b hb begins

/-- To replace the words of two lists in turn is to replace them all at once. -/
theorem InTurn.substitute_eq (text : Text) :
    substitute (wordAt later) (substitute (wordAt first) text) =
      substitute (wordAt (first ++ later)) text := by
  induction text using scan_induction (wordAt (first ++ later)) with
  | nil => rfl
  | skip c rest h ih =>
    rw [substitute_of_none h, ← ih]
    rw [wordAt_append, Option.or_eq_none_iff] at h
    have same := substitute_of_none h.1
    rw [same]
    refine substitute_of_none (wordAt_eq_none_iff.mpr fun entry mem begins => ?_)
    rw [← same] at begins
    exact wordAt_eq_none_iff.mp h.2 entry mem
      (prefix_of_prefix_substitute (turn.foreign mem) begins)
  | hit c rest found width h ih =>
    rw [substitute_of_some h, ← ih]
    rw [wordAt_append, Option.or_eq_some_iff] at h
    rcases h with early | ⟨-, late⟩
    · obtain ⟨word, mem, -⟩ := mem_of_wordAt early
      rw [substitute_of_some early]
      exact turn.idle _ mem
    · obtain ⟨word, mem, ⟨behind, split⟩, rfl⟩ := mem_of_wordAt late
      have nonempty : word ≠ [] := turn.positive _ (List.mem_append_right first mem)
      have left : rest.drop (word.length - 1) = behind := by
        obtain ⟨d, word, rfl⟩ := List.exists_cons_of_ne_nil nonempty
        rw [← (List.cons.inj split).2]
        exact List.drop_left
      rw [← split, left, turn.kept behind mem, substitute_word _ turn.distinct mem nonempty]

end InTurn

end ManPage.Text
