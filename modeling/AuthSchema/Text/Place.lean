import AuthSchema.Text.Position

/-! Places in a text known by byte offset and by position at once, and cuts at byte offsets. -/

namespace AuthSchema

/-- A boundary between characters, by the bytes before it and by its line and column. -/
structure Place where
  /-- The number of UTF-8 bytes before the boundary. -/
  offset : Nat
  /-- The line and column of the boundary. -/
  position : Position
  deriving DecidableEq, Repr, Inhabited

namespace Place

/-- The boundary before the first character. -/
def origin : Place :=
  ⟨0, .origin⟩

/-- The boundary after one more character. -/
def next (place : Place) (char : Char) : Place :=
  ⟨place.offset + char.utf8Size, place.position.next char⟩

/-- The boundary after a run of characters. -/
def after (place : Place) (text : List Char) : Place :=
  text.foldl next place

/-- Passing over nothing stays where it is. -/
@[simp] theorem after_nil (place : Place) : place.after [] = place :=
  rfl

/-- Passing over a run passes over its first character first. -/
@[simp] theorem after_cons (place : Place) (char : Char) (text : List Char) :
    place.after (char :: text) = (place.next char).after text :=
  rfl

/-- Passing over two runs is passing over one and then the other. -/
theorem after_append (place : Place) (first second : List Char) :
    place.after (first ++ second) = (place.after first).after second :=
  List.foldl_append

end Place

/--
Cuts a text after a number of bytes, into the characters before the cut and those after it.

A cut past the end of the text or inside a character does not exist.
-/
def splitBytes? : List Char → Nat → Option (List Char × List Char)
  | text, 0 => some ([], text)
  | [], _ + 1 => none
  | char :: text, bytes + 1 =>
    -- A character that does not fit before the cut is cut in two.
    if char.utf8Size ≤ bytes + 1 then
      (splitBytes? text (bytes + 1 - char.utf8Size)).map fun (before, rest) =>
        (char :: before, rest)
    else
      none

end AuthSchema
