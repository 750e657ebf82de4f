import AuthSchema.Proofs.Text.Cut
import AuthSchema.Text.LineTable
import Mathlib.Data.List.Induction
import Mathlib.Data.List.TakeWhile
import Mathlib.Data.String.Basic

/-!
The table of line starts gives the same positions as passing over the text.

* A text is cut at a byte offset exactly where a piece of it takes that many bytes.
* The last line start before an offset is where the line of that offset starts.
-/

namespace AuthSchema

open String (utf8Len)

/-- Passing over text moves a place on by the bytes of the text. -/
theorem Place.offset_after (place : Place) (text : List Char) :
    (place.after text).offset = place.offset + utf8Len text := by
  induction text generalizing place with
  | nil => rfl
  | cons char text ih =>
    rw [Place.after_cons, ih, String.utf8Len_cons]
    -- The first character is counted in the place on one side, and in the text on the other.
    show place.offset + char.utf8Size + utf8Len text = _
    omega

/-- The place after a piece at the front of a text counts the bytes of the piece. -/
@[simp] theorem Place.offset_after_origin (text : List Char) :
    (Place.origin.after text).offset = utf8Len text := by
  rw [Place.offset_after]
  show 0 + utf8Len text = utf8Len text
  omega

/-- A cut exists exactly where some piece at the front takes that many bytes. -/
theorem splitBytes?_eq_some_iff {text before rest : List Char} {bytes : Nat} :
    splitBytes? text bytes = some (before, rest) ↔
      text = before ++ rest ∧ utf8Len before = bytes := by
  -- The induction follows the cut, which takes off one character after another.
  fun_induction splitBytes? text bytes generalizing before with
  | case1 text =>
    -- No bytes are taken by no characters, and by nothing else.
    constructor
    · intro cut
      obtain ⟨rfl, rfl⟩ := Prod.mk.inj (Option.some.inj cut)
      exact ⟨rfl, rfl⟩
    · rintro ⟨rfl, none⟩
      rw [String.utf8Len_eq_zero.mp none, List.nil_append]
  | case2 bytes =>
    -- At its end a text has no more bytes to take.
    constructor
    · intro cut
      cases cut
    · rintro ⟨empty, taken⟩
      obtain ⟨rfl, rfl⟩ := List.append_eq_nil_iff.mp empty.symm
      cases taken
  | case3 bytes char text fits ih =>
    rw [Option.map_eq_some_iff]
    constructor
    · -- What is cut behind the first character takes the bytes that are left.
      rintro ⟨⟨before', rest'⟩, cut, same⟩
      obtain ⟨rfl, rfl⟩ := Prod.mk.inj same
      obtain ⟨rfl, taken⟩ := ih.mp cut
      refine ⟨rfl, ?_⟩
      rw [String.utf8Len_cons, taken]
      omega
    · -- A piece that takes some bytes has a first character, and the cut takes it off.
      rintro ⟨split, taken⟩
      cases before with
      | nil => cases taken
      | cons other before =>
        obtain ⟨rfl, rfl⟩ := List.cons.inj split
        rw [String.utf8Len_cons] at taken
        exact ⟨(before, rest), ih.mpr ⟨rfl, by omega⟩, rfl⟩
  | case4 bytes char text wide =>
    -- No cut is made inside a character.
    constructor
    · intro cut
      cases cut
    · rintro ⟨split, taken⟩
      cases before with
      | nil => cases taken
      | cons other before =>
        -- The first character alone would take more bytes than there are before the cut.
        obtain ⟨rfl, rfl⟩ := List.cons.inj split
        rw [String.utf8Len_cons] at taken
        omega

namespace LineTable

/-- The lines of two pieces start where those of each piece do. -/
theorem laterStarts_append (offset : Nat) (first second : List Char) :
    laterStarts offset (first ++ second) =
      laterStarts offset first ++ laterStarts (offset + utf8Len first) second := by
  induction first generalizing offset with
  | nil => rfl
  | cons char first ih =>
    -- The second piece is counted from where the first one stops.
    have shift : offset + utf8Len (char :: first) =
        offset + char.utf8Size + utf8Len first := by
      rw [String.utf8Len_cons]
      omega
    rw [List.cons_append, laterStarts, laterStarts, ih, shift]
    split
    · rfl
    · rfl

/-- A line starts behind the line feed that opens it, and inside the text or at its end. -/
theorem mem_laterStarts {offset start : Nat} {text : List Char}
    (listed : start ∈ laterStarts offset text) :
    offset < start ∧ start ≤ offset + utf8Len text := by
  induction text generalizing offset with
  | nil => simp [laterStarts] at listed
  | cons char text ih =>
    have positive := char.utf8Size_pos
    rw [String.utf8Len_cons]
    -- Wherever the line starts, it does not start before the end of the first character.
    have later : start = offset + char.utf8Size ∨
        start ∈ laterStarts (offset + char.utf8Size) text := by
      rw [laterStarts] at listed
      split at listed
      · exact List.mem_cons.mp listed
      · exact .inr listed
    rcases later with rfl | behind
    · omega
    · have bounds := ih behind
      omega

/-- The line starts of a text up to a cut are those of the piece before the cut. -/
theorem takeWhile_starts (before rest : List Char) :
    (0 :: laterStarts 0 (before ++ rest)).takeWhile (· ≤ utf8Len before) =
      0 :: laterStarts 0 before := by
  rw [laterStarts_append, ← List.cons_append, List.takeWhile_append_of_pos]
  · -- The first line behind the cut starts too late, and so do all others.
    have late : (laterStarts (0 + utf8Len before) rest).takeWhile (· ≤ utf8Len before) = [] := by
      refine List.takeWhile_eq_nil_iff.mpr ?_
      intro nonempty early
      have bounds := mem_laterStarts (List.get_mem _ ⟨0, nonempty⟩)
      simp only [decide_eq_true_eq] at early
      omega
    rw [late, List.append_nil]
  · -- All lines of the first piece start before its end, or at it.
    intro start listed
    rcases List.mem_cons.mp listed with rfl | later
    · simp
    · have bounds := mem_laterStarts later
      simp only [decide_eq_true_eq]
      omega

/--
The last line start of a piece cuts off its last line.

The position after the piece is in that line, behind all of its characters.
-/
theorem exists_last_line (text : List Char) :
    ∃ lead line, text = lead ++ line ∧
      (0 :: laterStarts 0 text).getLast? = some (utf8Len lead) ∧
      Position.origin.after text = ⟨(0 :: laterStarts 0 text).length, line.length + 1⟩ := by
  -- The induction takes the last character off, which decides where the last line starts.
  induction text using List.reverseRecOn with
  | nil => exact ⟨[], [], rfl, rfl, rfl⟩
  | append_singleton text char ih =>
    obtain ⟨lead, line, rfl, last, position⟩ := ih
    rw [laterStarts_append, Position.after_append, position]
    by_cases feeds : char = '\n'
    · -- A line feed opens a line that has no characters yet.
      subst feeds
      refine ⟨lead ++ line ++ ['\n'], [], by simp, ?_, ?_⟩
      · simp [laterStarts, List.getLast?_append, List.getLast?_cons, Nat.add_assoc]
      · simp [laterStarts, Position.next]
    · -- Any other character goes on in the same line.
      refine ⟨lead, line ++ [char], by simp, ?_, ?_⟩
      · simpa [laterStarts, feeds] using last
      · simp [laterStarts, Position.next, feeds]

/-- At a cut of the text, the table gives the position that passing over the piece before it gives. -/
theorem position?_of_split {source : String} {before rest : List Char}
    (split : source.toList = before ++ rest) :
    (ofText source).position? (utf8Len before) = some (Position.origin.after before) := by
  obtain ⟨lead, line, rfl, last, position⟩ := exists_last_line before
  -- The last line start is reached by a cut, and the offset by one more.
  have atLine : splitBytes? (ofText source).text (utf8Len lead) = some (lead, line ++ rest) := by
    refine splitBytes?_eq_some_iff.mpr ⟨?_, rfl⟩
    show source.toList = _
    rw [split, List.append_assoc]
  have inLine : splitBytes? (line ++ rest) (utf8Len (lead ++ line) - utf8Len lead) =
      some (line, rest) := by
    refine splitBytes?_eq_some_iff.mpr ⟨rfl, ?_⟩
    rw [String.utf8Len_append]
    omega
  have reached : (ofText source).starts.takeWhile (· ≤ utf8Len (lead ++ line)) =
      0 :: laterStarts 0 (lead ++ line) := by
    show (0 :: laterStarts 0 source.toList).takeWhile _ = _
    rw [split]
    exact takeWhile_starts (lead ++ line) rest
  -- Line and column are read off the piece that was cut last.
  simp only [position?, reached, last, atLine, inLine, Option.bind_eq_bind, Option.bind_some,
    Option.pure_def, position]

end LineTable

end AuthSchema
