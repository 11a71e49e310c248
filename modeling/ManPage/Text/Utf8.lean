import ManPage.Text.Basic

/-! UTF-8: the bytes of a text, and the text of bytes that are some text's. -/

namespace ManPage.Text

def toUtf8 (text : Text) : List UInt8 :=
  text.flatMap String.utf8EncodeChar

def ofUtf8? (bytes : List UInt8) : Option Text :=
  (String.fromUTF8? ⟨bytes.toArray⟩).map String.toList

end ManPage.Text
