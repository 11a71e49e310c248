import ManPage.Proofs.Anchor

/-! Identifiers that are given out one after another. Each is the base of its heading or, where that
was given out before, the base with the least number from one on that was not. -/

namespace ManPage

open Text Markup

theorem not_mem_stripTagsFrom (inside : Bool) (html : Text) : '<' ∉ stripTagsFrom inside html := by
  induction html generalizing inside with
  | nil => simp [stripTagsFrom]
  | cons c html ih =>
    unfold stripTagsFrom
    split
    · exact ih true
    · rename_i other
      split
      · exact ih _
      · simpa [Ne.symm other] using ih false

namespace Anchors

variable {anchors : Anchors} {before before' : List Text} {start html id text : Text}

/-! ### Bases -/

theorem isBlank_of_mem_underscore {c : Char} (mem : c ∈ underscore text) : isBlank c = false := by
  induction text with
  | nil => simp [underscore] at mem
  | cons d text ih =>
    unfold underscore at mem
    split at mem
    · split at mem
      · exact ih mem
      · rcases List.mem_cons.mp mem with rfl | mem
        · rfl
        · exact ih mem
    · rename_i visible
      rcases List.mem_cons.mp mem with rfl | mem
      · simpa using visible
      · exact ih mem

/-- Where a text does not end with a blank, underscores stand between its pieces, and in front of
them if it begins with a blank. -/
theorem underscore_eq_join (ends : ∀ c ∈ text.getLast?, isBlank c = false) :
    underscore text =
      (if text.head?.any isBlank then ['_'] else []) ++ join ['_'] (pieces text) := by
  induction text with
  | nil => simp [underscore, join]
  | cons c text ih =>
    cases text with
    | nil =>
      have visible : isBlank c = false := ends c rfl
      simp [underscore, visible, pieces_cons_visible, join]
    | cons d text =>
      have ends' : ∀ e ∈ (d :: text).getLast?, isBlank e = false := fun e mem =>
        ends e (by rwa [List.getLast?_cons_cons])
      -- Behind the first character there is a piece, which that character may begin.
      obtain ⟨piece, more, split⟩ :=
        List.exists_cons_of_ne_nil (pieces_ne_nil (List.cons_ne_nil d text) ends')
      have rest := ih ends'
      rw [split] at rest
      rw [underscore]
      by_cases blank : isBlank c = true
      · rw [pieces_cons_blank blank, split]
        by_cases blank' : isBlank d = true <;> simp [blank, blank', rest]
      · rw [pieces_cons_visible (by simpa using blank), split]
        by_cases blank' : isBlank d = true
        · simp [blank, blank', rest, join, List.intercalate_cons_cons]
        · cases more <;> simp [blank, blank', rest, join, List.intercalate_cons_cons]

/-- The base of a heading is the pieces of its text, with underscores between them. -/
theorem base_eq_join (html : Text) : base html = join ['_'] (pieces (stripTags html)) := by
  have starts : (trim (stripTags html)).head?.any isBlank = false := by
    rw [Option.any_eq_false]
    exact fun c mem => by simp [head?_trim _ c mem]
  have ends : ∀ c ∈ (trim (stripTags html)).getLast?, isBlank c = false := getLast?_trimEnd _
  rw [base, underscore_eq_join ends, pieces_trim, starts]
  rfl

theorem visible_base (html : Text) : ∀ c ∈ base html, isBlank c = false ∧ c ≠ '<' := by
  intro c mem
  refine ⟨isBlank_of_mem_underscore mem, ?_⟩
  rintro rfl
  rcases mem_underscore mem with eq | mem
  · exact absurd eq (by decide)
  · obtain ⟨blanks, -, split⟩ := trimEnd_append (trimStart (stripTags html))
    have inside : '<' ∈ trimStart (stripTags html) := split ▸ List.mem_append_left _ mem
    exact not_mem_stripTagsFrom false html ((List.dropWhile_suffix _).subset inside)

theorem visible_numbered (visible : ∀ c ∈ start, isBlank c = false ∧ c ≠ '<') (k : Nat) :
    ∀ c ∈ numbered start k, isBlank c = false ∧ c ≠ '<' := by
  intro c mem
  rcases List.mem_append.mp mem with mem | mem
  · exact visible c mem
  · rcases List.mem_cons.mp mem with rfl | mem
    · exact ⟨rfl, by decide⟩
    · have digit : isEntityChar c := by
        have := Nat.isDigit_of_mem_toDigits (by decide) (by decide) mem
        simp [isEntityChar, Char.isAlphanum, this]
      exact ⟨not_isBlank_of_isEntityChar digit, ne_of_isEntityChar digit rfl⟩

/-! ### The least free identifier -/

/-- The identifier that a base comes to where `before` were given out: the base, or else the base
with the least number from one on that was not. -/
inductive LeastFree (before : List Text) (start : Text) : Text → Prop
  | plain (free : start ∉ before) : LeastFree before start start
  | withNumber {k : Nat} (taken : start ∈ before) (positive : 1 ≤ k)
      (free : numbered start k ∉ before)
      (least : ∀ j, 1 ≤ j → j < k → numbered start j ∈ before) :
      LeastFree before start (numbered start k)

theorem LeastFree.visible (least : LeastFree before start id)
    (visible : ∀ c ∈ start, isBlank c = false ∧ c ≠ '<') :
    ∀ c ∈ id, isBlank c = false ∧ c ≠ '<' := by
  cases least with
  | plain => exact visible
  | withNumber => exact visible_numbered visible _

/-- It matters which identifiers were given out, and not in which order. -/
theorem LeastFree.congr (least : LeastFree before start id)
    (same : ∀ id, id ∈ before ↔ id ∈ before') : LeastFree before' start id := by
  cases least with
  | plain free => exact .plain fun mem => free ((same _).mpr mem)
  | withNumber taken positive free least =>
    exact .withNumber ((same _).mp taken) positive (fun mem => free ((same _).mpr mem))
      fun j low high => (same _).mp (least j low high)

/-- The search passes over numbers only where they are taken. -/
theorem freeNumber_least (given : List Text) (start : Text) (tries k : Nat) :
    k ≤ freeNumber given start tries k ∧
      ∀ j, k ≤ j → j < freeNumber given start tries k → numbered start j ∈ given := by
  induction tries generalizing k with
  | zero => exact ⟨Nat.le_refl k, fun j low high => absurd high (Nat.not_lt.mpr low)⟩
  | succ tries ih =>
    unfold freeNumber
    split
    · rename_i taken
      obtain ⟨bound, all⟩ := ih (k + 1)
      refine ⟨by omega, fun j low high => ?_⟩
      rcases Nat.eq_or_lt_of_le low with rfl | low
      · simpa using taken
      · exact all j low high
    · exact ⟨Nat.le_refl k, fun j low high => absurd high (Nat.not_lt.mpr low)⟩

/-- A registry gives out the least free identifier of the base of a heading. -/
theorem leastFree_register (anchors : Anchors) (html : Text) :
    LeastFree anchors.given (base html) (anchors.register html).1 := by
  have free : anchors.fresh (base html) ∉ anchors.given := anchors.register_not_mem html
  show LeastFree anchors.given (base html) (anchors.fresh (base html))
  unfold fresh at free ⊢
  split
  · rename_i taken
    rw [if_pos taken] at free
    obtain ⟨positive, least⟩ := freeNumber_least anchors.given (base html) anchors.given.length 1
    exact .withNumber (by simpa using taken) positive free least
  · rename_i new
    exact .plain (by simpa using new)

/-! ### Sequences of headings -/

/-- The identifiers that headings get one after another. -/
def registerAll (anchors : Anchors) : List Text → List Text
  | [] => []
  | html :: rest => (anchors.register html).1 :: (anchors.register html).2.registerAll rest

theorem length_registerAll (anchors : Anchors) (headings : List Text) :
    (anchors.registerAll headings).length = headings.length := by
  induction headings generalizing anchors with
  | nil => rfl
  | cons html headings ih => exact congrArg (· + 1) (ih _)

/-- Each heading gets the least free identifier behind those of the headings before it. -/
theorem leastFree_registerAll (anchors : Anchors) {headings : List Text} {i : Nat}
    (heading : headings[i]? = some html) :
    ∃ id, (anchors.registerAll headings)[i]? = some id ∧
      LeastFree (anchors.given ++ (anchors.registerAll headings).take i) (base html) id := by
  induction headings generalizing anchors i with
  | nil => cases heading
  | cons first headings ih =>
    cases i with
    | zero =>
      obtain rfl : first = html := by simpa using heading
      exact ⟨_, rfl, by simpa using anchors.leastFree_register first⟩
    | succ i =>
      obtain ⟨id, found, least⟩ := ih (anchors.register first).2 (by simpa using heading)
      refine ⟨id, found, least.congr fun other => ?_⟩
      simp [registerAll, register, or_left_comm]

theorem nodup_registerAll (anchors : Anchors) (headings : List Text) :
    (anchors.registerAll headings).Nodup ∧
      ∀ id ∈ anchors.registerAll headings, id ∉ anchors.given := by
  induction headings generalizing anchors with
  | nil => exact ⟨List.nodup_nil, fun _ mem => absurd mem List.not_mem_nil⟩
  | cons html headings ih =>
    obtain ⟨distinct, free⟩ := ih (anchors.register html).2
    have later : ∀ id ∈ (anchors.register html).2.registerAll headings,
        id ≠ (anchors.register html).1 ∧ id ∉ anchors.given := fun id mem => by
      simpa [register] using free id mem
    refine ⟨List.nodup_cons.mpr ⟨fun mem => (later _ mem).1 rfl, distinct⟩, ?_⟩
    exact List.forall_mem_cons.mpr ⟨anchors.register_not_mem html, fun id mem => (later id mem).2⟩

/-- The identifier of a heading behind `count` headings of the same base. -/
def repeated (start : Text) (count : Nat) : Text :=
  if count = 0 then start else numbered start count

theorem repeated_inj {k k' : Nat} (same : repeated start k = repeated start k') : k = k' := by
  unfold repeated at same
  split at same <;> split at same
  · omega
  · exact absurd same.symm (numbered_ne start k')
  · exact absurd same (numbered_ne start k)
  · exact numbered_inj same

/-- Where a base was given out with the numbers below `count`, it comes to the next number. -/
theorem LeastFree.eq_repeated {count : Nat} (least : LeastFree before start id)
    (given : ∀ k, repeated start k ∈ before ↔ k < count) : id = repeated start count := by
  cases least with
  | plain free =>
    have zero : ¬0 < count := fun more => free ((given 0).mpr more)
    rw [Nat.eq_zero_of_not_pos zero]
    rfl
  | @withNumber k taken positive free least =>
    have zero : 0 < count := (given 0).mp taken
    have eq (j : Nat) (positive : 1 ≤ j) : repeated start j = numbered start j :=
      if_neg (by omega)
    have atLeast : ¬k < count := fun below => free (eq k positive ▸ (given k).mpr below)
    have atMost : ¬count < k := fun above =>
      absurd ((given count).mp (eq count zero ▸ least count zero above)) (Nat.lt_irrefl count)
    rw [show k = count by omega] at positive ⊢
    exact (eq count positive).symm

theorem registerAll_replicate {count : Nat} (n : Nat)
    (given : ∀ k, repeated (base html) k ∈ anchors.given ↔ k < count) :
    anchors.registerAll (List.replicate n html) =
      (List.range' count n).map (repeated (base html)) := by
  induction n generalizing anchors count with
  | zero => rfl
  | succ n ih =>
    have first : (anchors.register html).1 = repeated (base html) count :=
      (anchors.leastFree_register html).eq_repeated given
    rw [List.replicate_succ, List.range'_succ, List.map_cons, ← first, registerAll]
    refine congrArg _ (ih fun k => ?_)
    have mem : repeated (base html) k ∈ (anchors.register html).2.given ↔
        k = count ∨ k < count := by
      rw [← given k, register, List.mem_cons]
      refine or_congr_left ?_
      rw [show anchors.fresh (base html) = _ from first]
      exact ⟨repeated_inj, congrArg _⟩
    rw [mem]
    omega

/-- A new registry gives out an identifier for each heading of a sequence: the base, which is the
pieces of the heading's text with underscores between them, unless it was given out before, and then
the base with the least number from one on that was not. So the identifiers are distinct, those of
one heading again and again are numbered in order, and none holds a blank or a bracket. -/
theorem registerAll_empty (headings : List Text) :
    let ids := registerAll {} headings
    ids.length = headings.length ∧
    (∀ i html, headings[i]? = some html →
      base html = join ['_'] (pieces (stripTags html)) ∧
        ∃ id, ids[i]? = some id ∧ LeastFree (ids.take i) (base html) id) ∧
    ids.Nodup ∧
    (∀ id ∈ ids, ∀ c ∈ id, isBlank c = false ∧ c ≠ '<') ∧
    ∀ n html, registerAll {} (List.replicate n html) =
      (List.range n).map (repeated (base html)) := by
  intro ids
  have least (i : Nat) (html : Text) (heading : headings[i]? = some html) :
      ∃ id, ids[i]? = some id ∧ LeastFree (ids.take i) (base html) id :=
    leastFree_registerAll {} heading
  have length : ids.length = headings.length := length_registerAll {} headings
  refine ⟨length, fun i html heading => ⟨base_eq_join html, least i html heading⟩,
    (nodup_registerAll {} headings).1, fun id mem => ?_, fun n html => ?_⟩
  · obtain ⟨i, bound, rfl⟩ := List.mem_iff_getElem.mp mem
    obtain ⟨id, found, free⟩ := least i _ (List.getElem?_eq_getElem (length ▸ bound))
    rw [List.getElem?_eq_getElem bound, Option.some.injEq] at found
    exact found ▸ free.visible (visible_base _)
  · rw [List.range_eq_range']
    exact registerAll_replicate n fun k => by simp

example : registerAll {} (["A_1", "<b>A</b>", " A ", "A"].map String.toList) =
    ["A_1", "A", "A_2", "A_3"].map String.toList := by
  decide

end Anchors

end ManPage
