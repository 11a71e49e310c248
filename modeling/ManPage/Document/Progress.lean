import ManPage.Document.Step

/-! A step reads lines from the start of what is unread, so what it leaves unread is a suffix. -/

namespace ManPage

namespace Table

theorem Format.read_unread_suffix (input : Input) :
    (Format.read input).input.unread <:+ input.unread := by
  have header := input.takeBlock_unread_suffix Format.isLast
  unfold Format.read
  dsimp only
  split <;> exact header

theorem readBody_unread_suffix (format : Format) (input : Input) :
    (readBody format input).input.unread <:+ input.unread := by
  have body := input.takeBlock_unread_suffix isEnd
  unfold readBody
  dsimp only
  split <;> exact body

theorem read_unread_suffix (input : Input) : (read input).input.unread <:+ input.unread := by
  have header := Format.read_unread_suffix input
  unfold read
  split
  all_goals
    rename_i h
    rw [h] at header
  · exact header
  · exact (readBody_unread_suffix _ _).trans header

end Table

namespace Document

theorem readText_unread_suffix (args : List Text) (input : Input) :
    (readText args input).input.unread <:+ input.unread := by
  unfold readText
  split
  · exact input.next_unread_suffix
  · exact List.suffix_refl _

theorem readFont_unread_suffix (font : Font) (args : List Text) (input : Input) :
    (readFont font args input).input.unread <:+ input.unread := by
  have text := readText_unread_suffix args input
  unfold readFont
  dsimp only
  split <;> exact text

theorem entryOfLine_unread_suffix (line : Text) (input : Input) :
    (entryOfLine line input).input.unread <:+ input.unread := by
  unfold entryOfLine
  split
  · exact readFont_unread_suffix _ _ input
  all_goals exact List.suffix_refl _

theorem readEntry_unread_suffix (input : Input) :
    (readEntry input).input.unread <:+ input.unread := by
  have next := input.next_unread_suffix
  unfold readEntry
  split
  · rename_i h
    rw [h] at next
    exact (entryOfLine_unread_suffix _ _).trans next
  · rename_i h
    rw [h] at next
    exact next

theorem skipBlock_unread_suffix (input : Input) :
    (skipBlock input).input.unread <:+ input.unread := by
  have block := input.takeBlock_unread_suffix endsSkippedBlock
  unfold skipBlock
  dsimp only
  split <;> exact block

theorem heading_unread_suffix (level : HeadingLevel) (state : State) (args : List Text)
    (input : Input) : (heading level state args input).input.unread <:+ input.unread := by
  have text := readText_unread_suffix args input
  unfold heading
  dsimp only
  split <;> exact text

theorem entry_unread_suffix (region : Region) (before after : Text) (state : State)
    (input : Input) : (entry region before after state input).input.unread <:+ input.unread :=
  readEntry_unread_suffix input

theorem indentedParagraph_unread_suffix (state : State) (args : List Text) (input : Input) :
    (indentedParagraph state args input).input.unread <:+ input.unread := by
  unfold indentedParagraph
  split
  · exact entry_unread_suffix _ _ _ state input
  · exact List.suffix_refl _

theorem marginDecrease_unread_suffix (state : State) (input : Input) :
    (marginDecrease state input).input.unread <:+ input.unread := by
  unfold marginDecrease
  dsimp only
  split <;> exact List.suffix_refl _

theorem perform_unread_suffix (options : Options) (state : State) (request : Request)
    (name : Text) (args : List Text) (input : Input) :
    (perform options state request name args input).input.unread <:+ input.unread := by
  cases request with
  | heading level => exact heading_unread_suffix level state args input
  | indentedParagraph => exact indentedParagraph_unread_suffix state args input
  | marginDecrease => exact marginDecrease_unread_suffix state input
  | term => exact entry_unread_suffix _ _ _ state input
  | font font => exact readFont_unread_suffix font args input
  | skippedBlock => exact skipBlock_unread_suffix input
  | table => exact Table.read_unread_suffix input
  | _ => exact List.suffix_refl _

theorem step_unread_suffix (options : Options) (state : State) (line : Text) (input : Input) :
    (step options state line input).input.unread <:+ input.unread := by
  unfold step
  split
  case h_5 =>
    unfold dispatch
    split
    · exact perform_unread_suffix options state _ _ _ input
    · exact List.suffix_refl _
  all_goals exact List.suffix_refl _

end Document

end ManPage
