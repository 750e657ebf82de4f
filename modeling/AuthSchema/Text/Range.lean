import AuthSchema.Text.Position

/-! Stretches of text between two positions, the first included and the second not. -/

namespace AuthSchema

/-- A stretch of text from its start up to, but not including, its stop. -/
structure Range where
  /-- The position of the first character. -/
  start : Position
  /-- The position just past the last character. -/
  stop : Position
  deriving DecidableEq, Repr, Inhabited

namespace Range

/-- The stretch of no characters at a position. -/
def empty (position : Position) : Range :=
  ⟨position, position⟩

/-- A stretch that does not reach past its start holds no character. -/
def isEmpty (range : Range) : Bool :=
  decide (range.stop ≤ range.start)

/-- A stretch contains its start and every later position before its stop. -/
def contains (range : Range) (position : Position) : Bool :=
  decide (range.start ≤ position) && decide (position < range.stop)

/-- A stretch touches every line from that of its start to that of its stop. -/
def spansLine (range : Range) (line : Nat) : Bool :=
  decide (range.start.line ≤ line) && decide (line ≤ range.stop.line)

/-- The smallest stretch that covers two others. -/
def cover (first second : Range) : Range :=
  ⟨min first.start second.start, max first.stop second.stop⟩

/-- A stretch runs over several lines when it stops on a later line than it starts. -/
def isMultiline (range : Range) : Bool :=
  decide (range.start.line < range.stop.line)

/-- Both ends of a stretch, with a separator between them. -/
def format (separator : String) (range : Range) : String :=
  range.start.display ++ separator ++ range.stop.display

/-- The form shown in messages joins the two ends by a dash. -/
def display : Range → String :=
  format "-"

/-- The form shown while inspecting a value joins the two ends by two dots. -/
def inspect : Range → String :=
  format ".."

/-- Puts an item before the first one that does not start earlier. -/
def insertByStart {α : Type} (range : α → Range) (item : α) : List α → List α
  | [] => [item]
  | head :: rest =>
    if (range item).start ≤ (range head).start then item :: head :: rest
    else head :: insertByStart range item rest

/-- Sorts items by where they start, where items that start together keep their order. -/
def sortByStart {α : Type} (range : α → Range) : List α → List α
  | [] => []
  -- The first of several equal starts is inserted last, and so comes to stand first.
  | item :: rest => insertByStart range item (sortByStart range rest)

end Range

end AuthSchema
