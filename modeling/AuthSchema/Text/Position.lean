/-! Line and column positions in a text, in document order. -/

namespace AuthSchema

/-- A place in a text, by its line and by its column in characters, both counted from one. -/
structure Position where
  /-- The number of the line, the first being one. -/
  line : Nat
  /-- The number of the character in its line, the first being one. -/
  column : Nat
  deriving DecidableEq, Repr, Inhabited

namespace Position

/-- One position precedes another on an earlier line, or on the same line in an earlier column. -/
instance : LT Position where
  lt first second :=
    first.line < second.line ∨ (first.line = second.line ∧ first.column < second.column)

/-- Document order allows the two positions to be the same. -/
instance : LE Position where
  le first second :=
    first.line < second.line ∨ (first.line = second.line ∧ first.column ≤ second.column)

/-- Precedence is settled by the two coordinates. -/
instance (first second : Position) : Decidable (first < second) :=
  inferInstanceAs (Decidable (_ ∨ (_ ∧ _)))

/-- So is weak precedence. -/
instance (first second : Position) : Decidable (first ≤ second) :=
  inferInstanceAs (Decidable (_ ∨ (_ ∧ _)))

/-- The earlier of two positions. -/
instance : Min Position := minOfLe

/-- The later of two positions. -/
instance : Max Position := maxOfLe

/-- Lines decide the comparison, and columns decide it within a line. -/
instance : Ord Position where
  compare first second :=
    (compare first.line second.line).then (compare first.column second.column)

/-- Strict precedence, spelled out on the two coordinates. -/
theorem lt_iff {first second : Position} :
    first < second ↔
      first.line < second.line ∨ (first.line = second.line ∧ first.column < second.column) :=
  Iff.rfl

/-- Weak precedence, spelled out on the two coordinates. -/
theorem le_iff {first second : Position} :
    first ≤ second ↔
      first.line < second.line ∨ (first.line = second.line ∧ first.column ≤ second.column) :=
  Iff.rfl

/-- Every text starts at its first line and first column. -/
def origin : Position :=
  ⟨1, 1⟩

/-- The position after a character: a line feed opens a line, and any other character fills a column. -/
def next (position : Position) (char : Char) : Position :=
  if char = '\n' then ⟨position.line + 1, 1⟩ else ⟨position.line, position.column + 1⟩

/-- The largest line or column that editors exchange, as an unsigned 32-bit number. -/
def maxCoordinate : Nat :=
  4294967295

/-- The position an editor names by counting from zero, held at the largest coordinate. -/
def ofZeroBased (line column : Nat) : Position :=
  -- Adding one to the largest coordinate leaves it where it is.
  ⟨min (line + 1) maxCoordinate, min (column + 1) maxCoordinate⟩

/-- The line counted from zero, where a line of zero stays zero. -/
def zeroBasedLine (position : Position) : Nat :=
  position.line - 1

/-- The column counted from zero, where a column of zero stays zero. -/
def zeroBasedColumn (position : Position) : Nat :=
  position.column - 1

/-- A position is shown as its line, a colon and its column. -/
def display (position : Position) : String :=
  s!"{position.line}:{position.column}"

end Position

end AuthSchema
