import ManPage.Proofs.Text.Scan
import ManPage.Table.Format
import Mathlib.Data.List.SplitBy

/-! The columns of a row of formats. The letters of a row can be cut in one way only so that every
piece but the first begins at a key letter and no piece goes past one; that cut is the row. -/

namespace ManPage.Table

open Text

/-- The letters of a row, without the blanks between them, and in lower case. -/
def letters (row : Text) : Text :=
  lower (row.filter fun c => !isBlank c)

/-- A way to cut the letters of a row into columns. -/
structure IsCut (row : Text) (columns : List Text) : Prop where
  whole : columns.flatten = letters row
  nonempty : ∀ column ∈ columns, column ≠ []
  begins : ∀ column ∈ columns.tail, ∃ key ∈ column.head?, key ∈ columnKeys
  inside : ∀ column ∈ columns, ∀ c ∈ column.tail, c ∉ columnKeys

variable {row text : Text} {cut : List Text}

/-! ### The columns of a row are a cut -/

/-- A letter as the mark that it is, if it is a key letter. -/
def markKey (c : Char) : Char ⊕ Char :=
  if columnKeys.contains c then .inr c else .inl c

/-- The letters in front of the first key letter. -/
def lead (row : Text) : Text :=
  (runs ((letters row).map markKey)).1

/-- The columns that begin at a key letter. -/
def keyColumns (row : Text) : List Text :=
  (runs ((letters row).map markKey)).2.map fun (key, rest) => key :: rest

theorem columns_cases (row : Text) :
    (lead row = [] ∧ columns row = keyColumns row) ∨
      (lead row ≠ [] ∧ columns row = lead row :: keyColumns row) := by
  have split : columns row = (if (lead row).isEmpty then [] else [lead row]) ++ keyColumns row :=
    rfl
  rw [split]
  by_cases empty : lead row = []
  · exact .inl ⟨empty, by rw [empty]; rfl⟩
  · exact .inr ⟨empty, by rw [if_neg (mt List.isEmpty_iff.mp empty)]; rfl⟩

/-- The marks among the letters of a text are its key letters. -/
theorem keys_marked {item : Char ⊕ Char} (mem : item ∈ text.map markKey) :
    item.elim (· ∉ columnKeys) (· ∈ columnKeys) := by
  obtain ⟨c, -, rfl⟩ := List.mem_map.mp mem
  unfold markKey
  split
  · rename_i key
    simpa using key
  · rename_i other
    simpa using other

theorem not_key_of_mem_lead {c : Char} (mem : c ∈ lead row) : c ∉ columnKeys :=
  keys_marked (mem_of_mem_lead mem)

theorem mem_keyColumns {column : Text} (mem : column ∈ keyColumns row) :
    ∃ key rest, column = key :: rest ∧ key ∈ columnKeys ∧ ∀ c ∈ rest, c ∉ columnKeys := by
  obtain ⟨⟨key, rest⟩, marked, rfl⟩ := List.mem_map.mp mem
  obtain ⟨isKey, others⟩ := mem_of_mem_marked marked
  exact ⟨key, rest, rfl, keys_marked isKey, fun c inside => keys_marked (others c inside)⟩

theorem map_markKey (text : Text) : (text.map markKey).map (Sum.elim id id) = text := by
  rw [List.map_map]
  refine (List.map_congr_left fun c _ => ?_).trans text.map_id
  unfold Function.comp markKey
  split <;> rfl

theorem lead_append (row : Text) : lead row ++ (keyColumns row).flatten = letters row := by
  have parts := congrArg (List.map (Sum.elim id id)) (flatten_runs ((letters row).map markKey))
  rw [map_markKey, List.map_append, List.map_flatMap] at parts
  refine Eq.trans ?_ parts
  rw [keyColumns, ← List.flatMap_def]
  simp [lead]

theorem isCut_columns (row : Text) : IsCut row (columns row) := by
  have nonempty : ∀ column ∈ keyColumns row, column ≠ [] := by
    intro column mem
    obtain ⟨key, rest, rfl, -⟩ := mem_keyColumns mem
    exact List.cons_ne_nil key rest
  have begins : ∀ column ∈ keyColumns row, ∃ key ∈ column.head?, key ∈ columnKeys := by
    intro column mem
    obtain ⟨key, rest, rfl, isKey, -⟩ := mem_keyColumns mem
    exact ⟨key, rfl, isKey⟩
  have inside : ∀ column ∈ keyColumns row, ∀ c ∈ column.tail, c ∉ columnKeys := by
    intro column mem
    obtain ⟨key, rest, rfl, -, others⟩ := mem_keyColumns mem
    exact others
  have whole := lead_append row
  rcases columns_cases row with ⟨empty, eq⟩ | ⟨first, eq⟩
  · rw [empty, List.nil_append] at whole
    rw [eq]
    exact ⟨whole, nonempty, fun column mem => begins column (List.mem_of_mem_tail mem), inside⟩
  · rw [eq]
    exact ⟨whole, List.forall_mem_cons.mpr ⟨first, nonempty⟩, begins,
      List.forall_mem_cons.mpr
        ⟨fun c mem => not_key_of_mem_lead (List.mem_of_mem_tail mem), inside⟩⟩

/-! ### There is no other cut -/

/-- Neighbours are related where every member is to every one but the first. -/
theorem isChain_of_tail {α : Type} {relation : α → α → Prop} {list : List α}
    (related : ∀ a ∈ list, ∀ b ∈ list.tail, relation a b) : list.IsChain relation := by
  cases list with
  | nil => exact List.isChain_nil
  | cons first rest =>
    refine (List.pairwise_cons.mpr ⟨related first List.mem_cons_self, ?_⟩).isChain
    exact List.pairwise_of_forall_mem_list fun a inside b inside' =>
      related a (List.mem_cons_of_mem first inside) b inside'

/-- In a cut, a letter stays with the one before it unless it is a key letter. -/
theorem IsCut.eq_splitBy (isCut : IsCut row cut) :
    cut = (letters row).splitBy fun _ c => !columnKeys.contains c := by
  rw [← isCut.whole]
  symm
  apply List.splitBy_flatten
  · exact fun empty => isCut.nonempty [] empty rfl
  · intro column mem
    apply isChain_of_tail
    intro before _ c inside
    simpa using isCut.inside column mem c inside
  · apply isChain_of_tail
    intro before mem after mem'
    obtain ⟨key, first, isKey⟩ := isCut.begins after mem'
    obtain ⟨rest, rfl⟩ := List.head?_eq_some_iff.mp first
    exact ⟨isCut.nonempty before mem, List.cons_ne_nil key rest, by simpa using isKey⟩

/-- Pushing a row of formats adds one row to the format and leaves the rest of it as it is, and the
row is the only cut of its letters into columns. -/
theorem pushRow_isCut (format : Format) (row : Text) :
    ∃ columns, format.pushRow row = { format with rows := format.rows ++ [columns] } ∧
      ∀ cut, IsCut row cut ↔ cut = columns := by
  refine ⟨columns row, rfl, fun cut => ⟨fun isCut => ?_, ?_⟩⟩
  · rw [isCut.eq_splitBy, (isCut_columns row).eq_splitBy]
  · rintro rfl
    exact isCut_columns row

example : columns "|Lb | C  n2".toList = ["|", "lb|", "c", "n2"].map String.toList := by decide

end ManPage.Table
