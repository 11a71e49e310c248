import ManPage.Text.Scan

/-! The laws of scanning. A scan is determined by what its finder answers at each position that it
comes to, and it keeps a stretch of text at which its finder answers nothing. -/

namespace ManPage.Text

variable {α : Type} {find : Finder α}

theorem scanFrom_eq_scan (find : Finder α) (skip : Nat) (text : Text) :
    scanFrom find skip text = scan find (text.drop skip) := by
  induction text generalizing skip with
  | nil => cases skip <;> simp [scan, scanFrom]
  | cons c rest ih =>
    cases skip with
    | zero => rfl
    | succ skip => exact ih skip

@[simp] theorem scan_nil (find : Finder α) : scan find [] = [] := rfl

theorem scan_of_none {c : Char} {rest : Text} (h : find (c :: rest) = none) :
    scan find (c :: rest) = .inl c :: scan find rest := by
  simp [scan, scanFrom, h]

theorem scan_of_some {c : Char} {rest : Text} {found : α} {width : Nat}
    (h : find (c :: rest) = some (found, width)) :
    scan find (c :: rest) = .inr found :: scan find (rest.drop (width - 1)) := by
  rw [scan, scanFrom, h]
  exact congrArg _ (scanFrom_eq_scan find _ rest)

/-- Induction over the positions that a scan comes to. -/
theorem scan_induction (find : Finder α) {motive : Text → Prop} (nil : motive [])
    (skip : ∀ c rest, find (c :: rest) = none → motive rest → motive (c :: rest))
    (hit : ∀ c rest found width, find (c :: rest) = some (found, width) →
      motive (rest.drop (width - 1)) → motive (c :: rest))
    (text : Text) : motive text := by
  induction h : text.length using Nat.strongRecOn generalizing text with
  | ind n ih =>
    subst h
    match text with
    | [] => exact nil
    | c :: rest =>
      match h : find (c :: rest) with
      | none => exact skip c rest h (ih _ (by simp) rest rfl)
      | some (found, width) =>
        refine hit c rest found width h (ih _ ?_ _ rfl)
        rw [List.length_drop, List.length_cons]
        omega

/-- A scan keeps characters at which its finder answers nothing. -/
theorem scan_append {kept rest : Text}
    (h : ∀ c s, c :: s <:+ kept → find (c :: s ++ rest) = none) :
    scan find (kept ++ rest) = kept.map .inl ++ scan find rest := by
  induction kept with
  | nil => rfl
  | cons c kept ih =>
    have tail := ih fun c' s suffix => h c' s (suffix.trans (List.suffix_cons c kept))
    have head : scan find (c :: kept ++ rest) = .inl c :: scan find (kept ++ rest) :=
      scan_of_none (h c kept (List.suffix_refl _))
    rw [head, tail]
    rfl

variable {find : Finder Text}

@[simp] theorem substitute_nil (find : Finder Text) : substitute find [] = [] := rfl

theorem substitute_of_none {c : Char} {rest : Text} (h : find (c :: rest) = none) :
    substitute find (c :: rest) = c :: substitute find rest := by
  simp [substitute, scan_of_none h]

theorem substitute_of_some {c : Char} {rest found : Text} {width : Nat}
    (h : find (c :: rest) = some (found, width)) :
    substitute find (c :: rest) = found ++ substitute find (rest.drop (width - 1)) := by
  simp [substitute, scan_of_some h]

/-- Characters at which the finder answers nothing are not substituted. -/
theorem substitute_append {kept rest : Text}
    (h : ∀ c s, c :: s <:+ kept → find (c :: s ++ rest) = none) :
    substitute find (kept ++ rest) = kept ++ substitute find rest := by
  simp [substitute, scan_append h, List.flatMap_map]

/-! ### Runs -/

variable {β : Type}

@[simp] theorem runs_nil : runs ([] : List (α ⊕ β)) = ([], []) := rfl

@[simp] theorem runs_inl (a : α) (list : List (α ⊕ β)) :
    runs (.inl a :: list) = (a :: (runs list).1, (runs list).2) := rfl

@[simp] theorem runs_inr (mark : β) (list : List (α ⊕ β)) :
    runs (.inr mark :: list) = ([], (mark, (runs list).1) :: (runs list).2) := rfl

theorem runs_append_inl (kept : List α) (list : List (α ⊕ β)) :
    runs (kept.map .inl ++ list) = (kept ++ (runs list).1, (runs list).2) := by
  induction kept with
  | nil => rfl
  | cons a kept ih => simp [ih]

/-- The runs of a list hold its members in order. -/
theorem flatten_runs (list : List (α ⊕ β)) :
    (runs list).1.map .inl ++ (runs list).2.flatMap (fun (mark, run) => .inr mark :: run.map .inl) =
      list := by
  induction list with
  | nil => rfl
  | cons item list ih =>
    cases item with
    | inl a => rw [runs_inl, List.map_cons, List.cons_append, ih]
    | inr mark =>
      rw [runs_inr, List.map_nil, List.nil_append, List.flatMap_cons, List.cons_append, ih]

theorem mem_of_mem_lead {list : List (α ⊕ β)} {a : α} (mem : a ∈ (runs list).1) :
    .inl a ∈ list := by
  rw [← flatten_runs list]
  exact List.mem_append_left _ (List.mem_map_of_mem mem)

theorem mem_of_mem_marked {list : List (α ⊕ β)} {mark : β} {run : List α}
    (mem : (mark, run) ∈ (runs list).2) : .inr mark ∈ list ∧ ∀ a ∈ run, .inl a ∈ list := by
  have inside : ∀ item ∈ .inr mark :: run.map .inl, item ∈ list := by
    intro item here
    rw [← flatten_runs list]
    exact List.mem_append_right _ (List.mem_flatMap_of_mem mem here)
  exact ⟨inside _ List.mem_cons_self,
    fun a here => inside _ (List.mem_cons_of_mem _ (List.mem_map_of_mem here))⟩

end ManPage.Text
