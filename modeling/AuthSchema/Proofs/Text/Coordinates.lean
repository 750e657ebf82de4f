import AuthSchema.Proofs.Text.Locator
import AuthSchema.Proofs.Text.Sort
import Mathlib.Data.List.DropRight
import Mathlib.Data.List.Sort

/-!
The position of a byte offset, by what stands before it, and the order of positions.

* The line counts the line feeds before the offset, and the column the characters since the last one.
* Of two boundaries of a text, the one with fewer bytes before it has the earlier position.
* So ranges that are searched or sorted by positions are searched or sorted by bytes.
-/

namespace AuthSchema

open String (utf8Len)

namespace Position

/-- Passing over text leads to the column behind the last of its lines. -/
theorem column_after_origin (text : List Char) :
    (origin.after text).column = 1 + (text.rtakeWhile (· != '\n')).length := by
  -- The last character either opens a line or is one more character of the last line.
  induction text using List.reverseRecOn with
  | nil => rfl
  | append_singleton text char ih =>
    rw [after_append, after_cons, after_nil, next]
    by_cases feeds : char = '\n'
    · -- Behind a line feed the last line has no characters yet.
      rw [if_pos feeds, List.rtakeWhile_concat_neg _ _ _ (by simp [feeds])]
      rfl
    · rw [if_neg feeds, List.rtakeWhile_concat_pos _ _ _ (by simp [feeds]), ih,
        List.length_append]
      rfl

/-- The position after a piece at the front of a text, counted in the piece. -/
theorem after_origin_eq (text : List Char) :
    origin.after text = ⟨1 + text.count '\n', 1 + (text.rtakeWhile (· != '\n')).length⟩ :=
  -- The line is counted by line feeds, and the column by what comes after the last of them.
  ext (line_after origin text) (column_after_origin text)

/-- More text leads to a later position. -/
theorem lt_after_of_ne_nil (position : Position) {text : List Char} (more : text ≠ []) :
    position < position.after text := by
  cases text with
  | nil => exact absurd rfl more
  -- The first character alone moves the position on.
  | cons char text => exact (position.lt_next char).trans_le (le_after _ text)

end Position

/-- A text has no fewer bytes than characters. -/
theorem length_le_utf8Len (text : List Char) : text.length ≤ utf8Len text := by
  -- Each character takes one byte at least.
  induction text with
  | nil => exact Nat.le_refl 0
  | cons char text ih =>
    have positive := char.utf8Size_pos
    rw [List.length_cons, String.utf8Len_cons]
    omega

/-- The boundaries of a text are the places that its string can be cut at. -/
theorem isBoundary_iff_isValid {source : String} {offset : Nat} :
    IsBoundary source.toList offset ↔ (String.Pos.Raw.mk offset).IsValid source := by
  -- A string can be cut where it is two strings one after another.
  rw [String.Pos.Raw.isValid_iff_exists_append]
  constructor
  · rintro ⟨before, rest, split, rfl⟩
    refine ⟨String.ofList before, String.ofList rest, ?_, ?_⟩
    · rw [← String.ofList_append, ← split, String.ofList_toList]
    · rw [String.Pos.Raw.ext_iff, String.byteIdx_rawEndPos, String.utf8ByteSize_ofList]
  · rintro ⟨before, rest, rfl, same⟩
    refine ⟨before.toList, rest.toList, String.toList_append, ?_⟩
    rw [String.utf8Len_toList]
    exact (congrArg String.Pos.Raw.byteIdx same).symm

namespace LineTable

variable {source : String}

/-- A position is found where a piece of the text takes the bytes, and it is counted in the piece. -/
theorem position?_eq_some_iff {offset : Nat} {found : Position} :
    (ofText source).position? offset = some found ↔
      ∃ before rest, source.toList = before ++ rest ∧ utf8Len before = offset ∧
        found.line = 1 + before.count '\n' ∧
        found.column = 1 + (before.rtakeWhile (· != '\n')).length := by
  rw [position?_eq, positionAfter?, Option.map_eq_some_iff]
  constructor
  · -- The piece before the cut tells both numbers.
    rintro ⟨⟨before, rest⟩, cut, rfl⟩
    obtain ⟨split, bytes⟩ := splitBytes?_eq_some_iff.mp cut
    rw [Position.after_origin_eq]
    exact ⟨before, rest, split, bytes, rfl, rfl⟩
  · -- The numbers tell one position, which is the one after the piece.
    rintro ⟨before, rest, split, bytes, line, column⟩
    refine ⟨(before, rest), splitBytes?_eq_some_iff.mpr ⟨split, bytes⟩, ?_⟩
    rw [Position.after_origin_eq]
    exact Position.ext line.symm column.symm

/-- Of two boundaries, the one behind more bytes is behind all the text before the other. -/
theorem position?_lt {early late : Nat} {first second : Position} (behind : early < late)
    (atEarly : (ofText source).position? early = some first)
    (atLate : (ofText source).position? late = some second) : first < second := by
  rw [position?_eq, positionAfter?, Option.map_eq_some_iff] at atEarly atLate
  obtain ⟨⟨before, rest⟩, cut, rfl⟩ := atEarly
  obtain ⟨⟨longer, left⟩, cutLater, rfl⟩ := atLate
  obtain ⟨split, rfl⟩ := splitBytes?_eq_some_iff.mp cut
  obtain ⟨splitLater, rfl⟩ := splitBytes?_eq_some_iff.mp cutLater
  -- Both pieces are at the front of one text, so that one of them goes on from the other.
  rcases List.append_eq_append_iff.mp (split.symm.trans splitLater) with
    ⟨more, rfl, -⟩ | ⟨more, rfl, -⟩
  · -- The longer piece has more text, which leads to a later position.
    dsimp only
    rw [Position.after_append]
    refine Position.lt_after_of_ne_nil _ ?_
    rintro rfl
    simp at behind
  · -- A piece with fewer bytes does not go on from one with more.
    rw [String.utf8Len_append] at behind
    omega

/-- Bytes and positions order the boundaries of a text in the same way. -/
theorem position?_lt_iff {first second : Nat} {firstFound secondFound : Position}
    (atFirst : (ofText source).position? first = some firstFound)
    (atSecond : (ofText source).position? second = some secondFound) :
    first < second ↔ firstFound < secondFound := by
  constructor
  · intro behind
    exact position?_lt behind atFirst atSecond
  · intro later
    rcases Nat.lt_trichotomy first second with behind | rfl | ahead
    · exact behind
    · -- One offset has one position, which is not before itself.
      rw [atFirst, Option.some.injEq] at atSecond
      exact absurd later atSecond.ge.not_gt
    · -- A larger offset would have a later position.
      exact absurd later (position?_lt ahead atSecond atFirst).not_gt

/-- The weak orders agree as well. -/
theorem position?_le_iff {first second : Nat} {firstFound secondFound : Position}
    (atFirst : (ofText source).position? first = some firstFound)
    (atSecond : (ofText source).position? second = some secondFound) :
    first ≤ second ↔ firstFound ≤ secondFound := by
  rw [← not_lt, ← not_lt, position?_lt_iff atSecond atFirst]

/-- Sorting by positions is sorting by bytes, and ties are left in the same order. -/
theorem sortByStart_eq {α : Type} {range : α → Range} {offset : α → Nat} {items : List α}
    (placed : ∀ item ∈ items,
      (ofText source).position? (offset item) = some (range item).start) :
    Range.sortByStart range items =
      items.insertionSort fun first second => offset first ≤ offset second := by
  rw [Range.sortByStart_eq_insertionSort]
  -- Both sorts compare the same items, and get the same answer for any two of them.
  have same := List.map_insertionSort
    (fun first second => (range first).start ≤ (range second).start)
    (fun first second => offset first ≤ offset second) id items
    (fun first listed second alsoListed =>
      (position?_le_iff (placed first listed) (placed second alsoListed)).symm)
  rwa [List.map_id, List.map_id] at same

/-- No number of the table or of its answers is larger than the text is long, and one more. -/
theorem coordinates_le {offset : Nat} {found : Position}
    (looked : (ofText source).position? offset = some found) :
    found.line ≤ source.utf8ByteSize + 1 ∧ found.column ≤ source.utf8ByteSize + 1 := by
  obtain ⟨before, rest, split, -, line, column⟩ := position?_eq_some_iff.mp looked
  have bytes : utf8Len before ≤ source.utf8ByteSize := by
    rw [← String.utf8Len_toList, split, String.utf8Len_append]
    omega
  have chars := length_le_utf8Len before
  have feeds : before.count '\n' ≤ before.length := List.count_le_length
  have lastLine : (before.rtakeWhile (· != '\n')).length ≤ before.length :=
    (List.rtakeWhile_suffix (· != '\n') before).length_le
  omega

end LineTable

/--
The table of line starts is the strictly increasing map from the boundaries of a text to positions.

* A position is found exactly for the offsets within the text that are not inside a character.
* Its line is one more than the line feeds before the offset, its column one more than the
  characters since the last of them.
* In a text of less than `Position.maxCoordinate` bytes, all line starts, lines and columns are
  numbers up to that one.
* Of two such offsets one is smaller exactly when its position is.
* A range between two of them contains the position of a third exactly when that lies between them,
  and sorting by positions is sorting by offsets.
-/
theorem LineTable.position?_orders_boundaries (source : String) :
    (∀ offset, (∃ found, (ofText source).position? offset = some found) ↔
      offset ≤ source.utf8ByteSize ∧ (String.Pos.Raw.mk offset).IsValid source) ∧
    (∀ offset found, (ofText source).position? offset = some found ↔
      ∃ before rest, source.toList = before ++ rest ∧ utf8Len before = offset ∧
        found.line = 1 + before.count '\n' ∧
        found.column = 1 + (before.rtakeWhile (· != '\n')).length) ∧
    (source.utf8ByteSize < Position.maxCoordinate →
      (∀ start ∈ (ofText source).starts, start ≤ Position.maxCoordinate) ∧
      ∀ offset found, (ofText source).position? offset = some found →
        found.line ≤ Position.maxCoordinate ∧ found.column ≤ Position.maxCoordinate) ∧
    (∀ first second firstFound secondFound,
      (ofText source).position? first = some firstFound →
      (ofText source).position? second = some secondFound →
        (first < second ↔ firstFound < secondFound)) ∧
    (∀ start stop offset (range : Range) (found : Position),
      (ofText source).position? start = some range.start →
      (ofText source).position? stop = some range.stop →
      (ofText source).position? offset = some found →
        (range.contains found ↔ start ≤ offset ∧ offset < stop)) ∧
    ∀ (α : Type) (range : α → Range) (offset : α → Nat) (items : List α),
      (∀ item ∈ items, (ofText source).position? (offset item) = some (range item).start) →
        Range.sortByStart range items =
          items.insertionSort fun first second => offset first ≤ offset second := by
  refine ⟨?_, fun offset found => position?_eq_some_iff, ?_, ?_, ?_, ?_⟩
  · intro offset
    rw [position?_eq, exists_positionAfter?_iff, isBoundary_iff_isValid]
    constructor
    · -- A place to cut at is within the text already.
      intro valid
      exact ⟨valid.le_rawEndPos, valid⟩
    · exact And.right
  · intro short
    constructor
    · intro start listed
      rcases List.mem_cons.mp listed with rfl | later
      · exact Nat.zero_le _
      · have bounds := mem_laterStarts later
        rw [String.utf8Len_toList] at bounds
        omega
    · intro offset found looked
      have bounds := coordinates_le looked
      omega
  · intro first second firstFound secondFound atFirst atSecond
    exact position?_lt_iff atFirst atSecond
  · intro start stop offset range found atStart atStop looked
    rw [position?_le_iff atStart looked, position?_lt_iff looked atStop]
    simp [Range.contains]
  · intro α range offset items placed
    exact sortByStart_eq placed

/-- A text of two lines, asked at its second character, inside its first one, and in its second line. -/
theorem LineTable.position?_orders_boundaries_twoByteLine :
    twoByteLine.utf8ByteSize < Position.maxCoordinate ∧
      (ofText twoByteLine).position? 0 = some ⟨1, 1⟩ ∧
      (ofText twoByteLine).position? 2 = some ⟨1, 2⟩ ∧
      (ofText twoByteLine).position? 4 = some ⟨2, 2⟩ ∧
      (¬∃ found, (ofText twoByteLine).position? 1 = some found) ∧
      (2 < 4 ↔ (⟨1, 2⟩ : Position) < ⟨2, 2⟩) ∧
      ((⟨⟨1, 1⟩, ⟨2, 2⟩⟩ : Range).contains ⟨1, 2⟩ ↔ 0 ≤ 2 ∧ 2 < 4) ∧
      Range.sortByStart (fun item : Nat × Position => .empty item.2)
          [(4, ⟨2, 2⟩), (0, ⟨1, 1⟩), (2, ⟨1, 2⟩)] =
        [(4, ⟨2, 2⟩), (0, ⟨1, 1⟩), (2, ⟨1, 2⟩)].insertionSort (fun first second =>
          first.1 ≤ second.1) ∧
      ∀ start ∈ (ofText twoByteLine).starts, start ≤ Position.maxCoordinate := by
  obtain ⟨finds, _, fits, orders, contains, sorts⟩ :=
    LineTable.position?_orders_boundaries twoByteLine
  have short : twoByteLine.utf8ByteSize < Position.maxCoordinate := by decide +kernel
  have atStart : (ofText twoByteLine).position? 0 = some ⟨1, 1⟩ := by decide +kernel
  have atFeed : (ofText twoByteLine).position? 2 = some ⟨1, 2⟩ := by decide +kernel
  have inSecond : (ofText twoByteLine).position? 4 = some ⟨2, 2⟩ := by decide +kernel
  refine ⟨short, atStart, atFeed, inSecond, ?_, orders 2 4 _ _ atFeed inSecond,
    contains 0 4 2 ⟨⟨1, 1⟩, ⟨2, 2⟩⟩ _ atStart inSecond atFeed, ?_, (fits short).1⟩
  · rw [finds 1]
    decide +kernel
  · refine sorts (Nat × Position) (fun item => .empty item.2) Prod.fst _ ?_
    simp [Range.empty, atStart, atFeed, inSecond]

end AuthSchema
