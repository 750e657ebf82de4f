import AuthSchema.Text.Place
import AuthSchema.Text.Range

/-! A table of where lines start, which turns byte offsets into positions. -/

namespace AuthSchema

/-- A text together with the byte offset at which each of its lines starts. -/
structure LineTable where
  /-- The characters of the text. -/
  text : List Char
  /-- The byte offset of the start of each line, in order. -/
  starts : List Nat

namespace LineTable

/-- The starts of the lines after the first one, given the offset at which the text stands. -/
def laterStarts (offset : Nat) : List Char → List Nat
  | [] => []
  | char :: text =>
    -- Only a line feed opens a line, and the line starts right after it.
    let stop := offset + char.utf8Size
    if char = '\n' then stop :: laterStarts stop text else laterStarts stop text

/-- The table of a text, whose first line starts at its first byte. -/
def ofText (text : String) : LineTable :=
  ⟨text.toList, 0 :: laterStarts 0 text.toList⟩

/-- The number of lines, which is one more than the number of line feeds. -/
def lineCount (table : LineTable) : Nat :=
  table.starts.length

/-- A table without lines, which no text has, since even an empty text has one. -/
def isEmpty (table : LineTable) : Bool :=
  table.starts.isEmpty

/-- The position of a byte offset, where the offset is a character boundary of the text. -/
def position? (table : LineTable) (offset : Nat) : Option Position := do
  -- The line is the last one that starts no later than the offset.
  let reached := table.starts.takeWhile (· ≤ offset)
  let lineStart ← reached.getLast?
  -- The column counts the characters from the start of that line.
  let (_, line) ← splitBytes? table.text lineStart
  let (before, _) ← splitBytes? line (offset - lineStart)
  return ⟨reached.length, before.length + 1⟩

/-- The range between two byte offsets, where both are boundaries and in order. -/
def range? (table : LineTable) (start stop : Nat) : Option Range :=
  if start ≤ stop then do
    return ⟨← table.position? start, ← table.position? stop⟩
  else
    none

/-- The number of bytes of the text. -/
def byteCount (table : LineTable) : Nat :=
  (Place.origin.after table.text).offset

/-- The position just past the last character. -/
def textStop? (table : LineTable) : Option Position :=
  table.position? table.byteCount

end LineTable

end AuthSchema
