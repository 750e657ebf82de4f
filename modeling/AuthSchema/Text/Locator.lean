import AuthSchema.Text.Place
import AuthSchema.Text.Range

/-! A moving pointer into a text that turns byte offsets into positions by counting on from the last one. -/

namespace AuthSchema

/-- A pointer into a text, with the characters that lie ahead of it. -/
structure Locator where
  /-- The characters of the whole text. -/
  text : List Char
  /-- Where the pointer stands. -/
  place : Place
  /-- The characters from the pointer on. -/
  ahead : List Char

namespace Locator

/-- A pointer at the start of a text. -/
def atStart (text : List Char) : Locator :=
  ⟨text, .origin, text⟩

/-- A pointer at the start of a string. -/
def ofText (text : String) : Locator :=
  atStart text.toList

/-- The pointer from which an offset is reached, which restarts when the offset lies behind. -/
def restart (locator : Locator) (offset : Nat) : Locator :=
  if offset < locator.place.offset then atStart locator.text else locator

/--
Moves to a byte offset and gives its position, or `none` when the offset is no character boundary.

A pointer that cannot move stays where it counts from, so that it can be asked again.
-/
def seek (locator : Locator) (offset : Nat) : Option Position × Locator :=
  let base := locator.restart offset
  -- The text before the pointer is not looked at again.
  match splitBytes? base.ahead (offset - base.place.offset) with
  | none => (none, base)
  | some (passed, ahead) =>
    -- Only the characters between the two offsets are counted.
    let place := base.place.after passed
    (some place.position, ⟨base.text, place, ahead⟩)

/-- Moves to the start and then to the stop of a stretch of bytes, which must be in order. -/
def seekRange (locator : Locator) (start stop : Nat) : Option Range × Locator :=
  if stop < start then
    (none, locator)
  else
    match locator.seek start with
    -- A start that is no boundary leaves the pointer ready for the next request.
    | (none, atStart) => (none, atStart)
    | (some first, atStart) =>
      let (last, atStop) := atStart.seek stop
      (last.map fun last => ⟨first, last⟩, atStop)

end Locator

end AuthSchema
