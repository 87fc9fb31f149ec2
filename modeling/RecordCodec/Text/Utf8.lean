import RecordCodec.Bytes

/-!
# Text as UTF-8 bytes

Text travels as its UTF-8 bytes. A byte string is the form of at most one text,
and only well-formed ones are read.
-/

namespace RecordCodec

namespace Text

def utf8 (text : String) : Bytes := text.toByteArray.data.toList

/-- The text with the given UTF-8 form, if they are well formed. -/
def ofUtf8? (bytes : Bytes) : Option String := String.fromUTF8? ⟨bytes.toArray⟩

@[simp] theorem ofUtf8?_utf8 (text : String) : ofUtf8? (utf8 text) = some text := by
  simp [ofUtf8?, utf8, String.fromUTF8?, text.isValidUTF8, String.fromUTF8]

theorem utf8_of_ofUtf8? {bytes : Bytes} {text : String} (h : ofUtf8? bytes = some text) :
    utf8 text = bytes := by
  simp only [ofUtf8?, String.fromUTF8?] at h
  split at h
  · cases h
    rfl
  · cases h

end Text

end RecordCodec
