import AuthSchema.Text.Place
import AuthSchema.Text.Range
import Mathlib.Order.Defs.LinearOrder
import Mathlib.Order.Compare

/-! Positions are linearly ordered, and reading on in a text moves the position on. -/

namespace AuthSchema

namespace Position

/-- Two positions are the same when they agree in line and column. -/
theorem ext {first second : Position} (line : first.line = second.line)
    (column : first.column = second.column) : first = second := by
  -- A position is nothing but its two numbers.
  cases first
  cases second
  exact congrArg₂ Position.mk line column

/-- Positions are ordered by line, and by column on one line. -/
instance : LinearOrder Position where
  le_refl position := by
    rw [le_iff]
    omega
  le_trans first second third := by
    simp only [le_iff]
    omega
  lt_iff_le_not_ge first second := by
    simp only [le_iff, lt_iff]
    omega
  le_antisymm first second := by
    simp only [le_iff]
    -- Neither position comes after the other, so that both numbers agree.
    intro forward backward
    exact ext (by omega) (by omega)
  le_total first second := by
    simp only [le_iff]
    omega
  toDecidableLE := inferInstance
  toDecidableEq := inferInstance
  toDecidableLT := inferInstance
  compare_eq_compareOfLessAndEq first second := by
    -- Lines decide, and columns decide where lines do not.
    show (compare first.line second.line).then (compare first.column second.column) = _
    unfold compareOfLessAndEq
    rcases Nat.lt_trichotomy first.line second.line with before | same | after
    -- Different lines decide at once.
    · rw [Nat.compare_eq_lt.mpr before, if_pos (lt_iff.mpr (.inl before))]
      rfl
    · -- On one line, the three cases are those of the columns.
      rw [Nat.compare_eq_eq.mpr same, Ordering.eq_then]
      rcases Nat.lt_trichotomy first.column second.column with left | both | right
      · -- The position further left comes first.
        rw [Nat.compare_eq_lt.mpr left, if_pos (lt_iff.mpr (.inr ⟨same, left⟩))]
      · -- Equal columns on one line make one position.
        rw [ext same both, if_neg (by rw [lt_iff]; omega), if_pos rfl]
        exact Nat.compare_eq_eq.mpr rfl
      · rw [Nat.compare_eq_gt.mpr right, if_neg (by rw [lt_iff]; omega), if_neg]
        -- One position is not to the right of itself.
        rintro rfl
        omega
    · -- A later line is neither earlier nor the same.
      rw [Nat.compare_eq_gt.mpr after, if_neg (by rw [lt_iff]; omega), if_neg]
      · rfl
      · rintro rfl
        omega

/-- Every character moves the position on. -/
theorem lt_next (position : Position) (char : Char) : position < position.next char := by
  -- A line feed opens a later line, and any other character takes one more column.
  unfold next
  split
  · exact .inl (Nat.lt_succ_self _)
  · exact .inr ⟨rfl, Nat.lt_succ_self _⟩

end Position

namespace Place

/-- Passing over text never moves a place back. -/
theorem position_le_after (place : Place) (text : List Char) :
    place.position ≤ (place.after text).position := by
  induction text generalizing place with
  | nil => exact le_refl _
  -- One character moves the position on, and the others do not move it back.
  | cons char text ih => exact (place.position.lt_next char).le.trans (ih (place.next char))

/-- Passing over at least one character moves a place on. -/
theorem position_lt_after_cons (place : Place) (char : Char) (text : List Char) :
    place.position < (place.after (char :: text)).position :=
  -- The first character moves the position on, and the others do not move it back.
  (place.position.lt_next char).trans_le ((place.next char).position_le_after text)

end Place

/-- Where one range ends before another, both together reach from the first to the second. -/
theorem Range.cover_of_before {first second : Range} (firstProper : first.start < first.stop)
    (between : first.stop ≤ second.start) (secondProper : second.start < second.stop) :
    first.cover second = ⟨first.start, second.stop⟩ := by
  -- The first range starts first and the second one stops last, since neither is turned around.
  unfold Range.cover
  rw [min_eq_left (firstProper.le.trans between), max_eq_right (between.trans secondProper.le)]

end AuthSchema
