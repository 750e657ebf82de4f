import AuthSchema.Proofs.Text.Order

/-!
Pieces of a text: the characters at a range, and where they land when they are put elsewhere.

* The text at a range is the only piece of the source between its two positions.
* Text that is moved keeps its lines and columns, apart from the columns of its first line.
-/

namespace AuthSchema

namespace Position

/-- The position after a run of characters. -/
def after (position : Position) (text : List Char) : Position :=
  text.foldl next position

/-- No characters leave the position where it is. -/
@[simp] theorem after_nil (position : Position) : position.after [] = position :=
  rfl

/-- A run of characters is passed over one by one. -/
@[simp] theorem after_cons (position : Position) (char : Char) (text : List Char) :
    position.after (char :: text) = (position.next char).after text :=
  rfl

/-- Passing over two runs is passing over one and then the other. -/
theorem after_append (position : Position) (first second : List Char) :
    position.after (first ++ second) = (position.after first).after second :=
  List.foldl_append

/-- Passing over text never moves a position back. -/
theorem le_after (position : Position) (text : List Char) : position ≤ position.after text := by
  induction text generalizing position with
  | nil => exact le_refl _
  -- One character moves the position on, and the others do not move it back.
  | cons char text ih => exact (position.lt_next char).le.trans (ih (position.next char))

/-- Passing over text leads down one line for each line feed. -/
theorem line_after (position : Position) (text : List Char) :
    (position.after text).line = position.line + text.count '\n' := by
  induction text generalizing position with
  | nil => rfl
  | cons char text ih =>
    rw [after_cons, ih, next, List.count_cons]
    by_cases feeds : char = '\n'
    · -- The line feed is counted in the position on one side, and in the text on the other.
      simp only [feeds, if_true, beq_self_eq_true]
      omega
    · simp [feeds]

/-- Text without a line feed leads along its line, one column for each character. -/
theorem after_of_oneLine {text : List Char} (oneLine : '\n' ∉ text) (position : Position) :
    position.after text = ⟨position.line, position.column + text.length⟩ := by
  induction text generalizing position with
  | nil => rfl
  | cons char text ih =>
    -- The first character is no line feed either, and so takes one more column.
    rw [List.mem_cons, not_or] at oneLine
    rw [after_cons, ih oneLine.2, next, if_neg (Ne.symm oneLine.1), List.length_cons]
    show Position.mk position.line (position.column + 1 + text.length) = _
    rw [Nat.add_assoc, Nat.add_comm 1]

end Position

/-- The position of a place is moved on as the place is. -/
@[simp] theorem Place.position_after (place : Place) (text : List Char) :
    (place.after text).position = place.position.after text := by
  induction text generalizing place with
  | nil => rfl
  | cons char text ih => exact ih (place.next char)

/-- Cuts a text at a position, given the position before its first character. -/
def cutAt? (start target : Position) : List Char → Option (List Char × List Char)
  | [] => if start = target then some ([], []) else none
  | char :: text =>
    if start = target then some ([], char :: text)
    else (cutAt? (start.next char) target text).map fun (before, rest) => (char :: before, rest)

/-- A cut splits the text where the position is reached, which is at one place only. -/
theorem cutAt?_eq_some_iff {start target : Position} {text before rest : List Char} :
    cutAt? start target text = some (before, rest) ↔
      text = before ++ rest ∧ start.after before = target := by
  -- The induction is on the text, of which a cut takes one character after another.
  induction text generalizing start before with
  | nil =>
    rw [cutAt?]
    split
    · -- At its end a text can be cut only behind no characters at all.
      rename_i here
      cases before <;> simp_all [eq_comm]
    · rename_i elsewhere
      cases before <;> simp_all
  | cons char text ih =>
    rw [cutAt?]
    split
    · -- Any character would already lead past the position.
      rename_i here
      cases before with
      | nil => simp [here, eq_comm]
      | cons other before =>
        have past : start < (start.next other).after before :=
          (start.lt_next other).trans_le ((start.next other).le_after before)
        simp [← here, past.ne']
    · -- The cut lies behind the first character, and is one of the others then.
      rename_i elsewhere
      cases before with
      | nil => simp [elsewhere]
      | cons other before =>
        simp only [Option.map_eq_some_iff, Prod.mk.injEq, Prod.exists, List.cons.injEq,
          List.cons_append, Position.after_cons]
        constructor
        · rintro ⟨before', rest', cut, ⟨rfl, rfl⟩, rfl⟩
          exact ⟨⟨rfl, (ih.mp cut).1⟩, (ih.mp cut).2⟩
        · rintro ⟨⟨rfl, split⟩, reached⟩
          exact ⟨before, rest, ih.mpr ⟨split, reached⟩, ⟨rfl, rfl⟩, rfl⟩

/-- The characters of a text between the two positions of a range. -/
def textAt? (source : String) (range : Range) : Option String := do
  let (_, rest) ← cutAt? .origin range.start source.toList
  let (text, _) ← cutAt? range.start range.stop rest
  return String.ofList text

/-- The text at a range is the piece of the source that starts and stops at its two positions. -/
theorem textAt?_eq_some_iff {source text : String} {range : Range} :
    textAt? source range = some text ↔
      ∃ before rest, source.toList = before ++ (text.toList ++ rest) ∧
        Position.origin.after before = range.start ∧
        range.start.after text.toList = range.stop := by
  -- The range is cut off in two steps, first at its start and then at its stop.
  simp only [textAt?, Option.bind_eq_bind, Option.bind_eq_some_iff, Prod.exists,
    Option.pure_def, Option.some.injEq]
  constructor
  · rintro ⟨before, behind, first, middle, rest, second, rfl⟩
    obtain ⟨split, starts⟩ := cutAt?_eq_some_iff.mp first
    obtain ⟨rfl, stops⟩ := cutAt?_eq_some_iff.mp second
    exact ⟨before, rest, by simpa using split, starts, by simpa using stops⟩
  -- The two cuts are found again, since the first leaves the piece with what follows it.
  · rintro ⟨before, rest, split, starts, stops⟩
    exact ⟨before, text.toList ++ rest, cutAt?_eq_some_iff.mpr ⟨split, starts⟩, text.toList, rest,
      cutAt?_eq_some_iff.mpr ⟨rfl, stops⟩, String.ofList_toList⟩

namespace Position

/-- Where a position lands when the text from a base on is put at a target instead. -/
def moved (base target position : Position) : Position :=
  ⟨position.line - base.line + target.line,
    -- Later lines start at their own first column wherever the text stands.
    if position.line = base.line then position.column - base.column + target.column
    else position.column⟩

/-- The base itself lands at the target. -/
@[simp] theorem moved_base (base target : Position) : base.moved target base = target := by
  simp [moved]

/-- Moving a position and passing over a character can be done in either order. -/
theorem moved_next {base position : Position} (reached : base ≤ position) (target : Position)
    (char : Char) :
    base.moved target (position.next char) = (base.moved target position).next char := by
  rw [le_iff] at reached
  unfold next moved
  by_cases feeds : char = '\n'
  · -- A line feed leaves the line of the base for good.
    simp only [feeds, if_true]
    rw [if_neg (by omega)]
    exact ext (by dsimp only; omega) rfl
  · -- On its own line, the position keeps its distance from the base.
    simp only [feeds, if_false]
    split
    · exact ext rfl (by dsimp only; omega)
    · rfl

/-- Moving keeps the order of what comes after the base. -/
theorem moved_le_moved {base first second : Position} (reached : base ≤ first) (target : Position)
    (ordered : first ≤ second) : base.moved target first ≤ base.moved target second := by
  rw [le_iff] at reached ordered ⊢
  unfold moved
  dsimp only
  -- Two positions on one line are moved sideways together, or not at all.
  by_cases onFirst : first.line = base.line
  · by_cases both : second.line = base.line
    · rw [if_pos onFirst, if_pos both]
      omega
    · omega
  · rw [if_neg onFirst]
    by_cases both : second.line = base.line
    · omega
    · rw [if_neg both]
      omega

end Position

namespace Range

/-- A range whose two ends are moved. -/
def moved (base target : Position) (range : Range) : Range :=
  ⟨base.moved target range.start, base.moved target range.stop⟩

/-- The cover of two ranges that come after the base is moved along with them. -/
theorem moved_cover {base : Position} (target : Position) {first second : Range}
    (firstStart : base ≤ first.start) (firstStop : base ≤ first.stop)
    (secondStart : base ≤ second.start) (secondStop : base ≤ second.stop) :
    (first.cover second).moved base target =
      (first.moved base target).cover (second.moved base target) := by
  -- The earlier start stays the earlier one, since moving keeps the order.
  have start_eq : base.moved target (min first.start second.start) =
      min (base.moved target first.start) (base.moved target second.start) := by
    rcases le_total first.start second.start with before | before
    · rw [min_eq_left before, min_eq_left (Position.moved_le_moved firstStart target before)]
    · rw [min_eq_right before, min_eq_right (Position.moved_le_moved secondStart target before)]
  -- And the later stop stays the later one.
  have stop_eq : base.moved target (max first.stop second.stop) =
      max (base.moved target first.stop) (base.moved target second.stop) := by
    rcases le_total first.stop second.stop with before | before
    · rw [max_eq_right before, max_eq_right (Position.moved_le_moved firstStop target before)]
    · rw [max_eq_left before, max_eq_left (Position.moved_le_moved secondStop target before)]
  exact congrArg₂ Range.mk start_eq stop_eq

end Range

namespace Place

/-- One place comes before another, by its position and by its bytes. -/
structure Precedes (first second : Place) : Prop where
  position_le : first.position ≤ second.position
  offset_le : first.offset ≤ second.offset

/-- A place does not come after itself. -/
theorem Precedes.refl (place : Place) : place.Precedes place :=
  ⟨le_refl _, Nat.le_refl _⟩

/-- Passing over a character leaves what came before where it is. -/
theorem Precedes.next {base place : Place} (reached : base.Precedes place) (char : Char) :
    base.Precedes (place.next char) :=
  -- A character moves the position on, and takes some bytes.
  ⟨reached.position_le.trans (place.position.lt_next char).le,
    Nat.le_add_right_of_le reached.offset_le⟩

/-- Passing over text leaves what came before where it is. -/
theorem Precedes.after {base place : Place} (reached : base.Precedes place) (text : List Char) :
    base.Precedes (place.after text) := by
  induction text generalizing place with
  | nil => exact reached
  | cons char text ih => exact ih (reached.next char)

/-- Where a place lands when the text from a base on is put at a target instead. -/
def moved (base target place : Place) : Place :=
  ⟨place.offset - base.offset + target.offset,
    base.position.moved target.position place.position⟩

/-- The base itself lands at the target. -/
@[simp] theorem moved_base (base target : Place) : base.moved target base = target := by
  simp [moved]

/-- Moving a place and passing over text can be done in either order. -/
theorem moved_after {base place : Place} (reached : base.Precedes place) (target : Place)
    (text : List Char) :
    base.moved target (place.after text) = (base.moved target place).after text := by
  induction text generalizing place with
  | nil => rfl
  | cons char text ih =>
    -- One character adds the same bytes wherever it stands, and its position is moved along.
    have step : base.moved target (place.next char) = (base.moved target place).next char := by
      have offset_le := reached.offset_le
      refine congrArg₂ Place.mk ?_ (Position.moved_next reached.position_le _ char)
      simp only [Place.next, moved]
      omega
    rw [after_cons, after_cons, ← step]
    exact ih (reached.next char)

/-- Only the empty text takes no bytes. -/
theorem eq_nil_of_offset_after {place : Place} {text : List Char}
    (same : (place.after text).offset = place.offset) : text = [] := by
  cases text with
  | nil => rfl
  | cons char text =>
    -- Any character takes a byte at least, and no later one gives it back.
    have behind := ((Precedes.refl (place.next char)).after text).offset_le
    have positive := char.utf8Size_pos
    rw [after_cons] at same
    simp only [Place.next] at behind same
    omega

/-- Two pieces at the front of one text that take equally many bytes are the same. -/
theorem append_inj_of_offset {place : Place} {first second later behind : List Char}
    (same : first ++ later = second ++ behind)
    (bytes : (place.after first).offset = (place.after second).offset) :
    first = second ∧ later = behind := by
  -- One of the two goes on where the other stops, and what it adds takes no bytes.
  rcases List.append_eq_append_iff.mp same with ⟨more, rfl, rfl⟩ | ⟨more, rfl, rfl⟩
  · rw [after_append] at bytes
    simp [eq_nil_of_offset_after bytes.symm]
  · rw [after_append] at bytes
    simp [eq_nil_of_offset_after bytes]

end Place

/-- A text stands in a source between two places. -/
def Stands (source : String) (start stop : Place) (text : String) : Prop :=
  ∃ before rest, source.toList = before ++ (text.toList ++ rest) ∧
    Place.origin.after before = start ∧ start.after text.toList = stop

namespace Stands

variable {source : String}

/-- A text that stands between two places is the one at their range. -/
theorem textAt?_eq {start stop : Place} {text : String} (stands : Stands source start stop text) :
    textAt? source ⟨start.position, stop.position⟩ = some text := by
  -- Both places are told by the text before them.
  obtain ⟨before, rest, split, rfl, rfl⟩ := stands
  refine textAt?_eq_some_iff.mpr ⟨before, rest, split, ?_, ?_⟩
  · exact (Place.origin.position_after before).symm
  · exact ((Place.origin.after before).position_after text.toList).symm

/-- Two texts with no byte between them stand in the source as one. -/
theorem join {start stop next last : Place} {first second : String}
    (stands : Stands source start stop first) (others : Stands source next last second)
    (adjacent : stop.offset = next.offset) : Stands source start last (first ++ second) := by
  obtain ⟨before, rest, split, rfl, rfl⟩ := stands
  obtain ⟨earlier, later, split', rfl, rfl⟩ := others
  -- Both cuts are after equally many bytes, and so they are the same.
  have same : (before ++ first.toList) ++ rest = earlier ++ (second.toList ++ later) := by
    rw [List.append_assoc, ← split, split']
  rw [← Place.after_append] at adjacent
  obtain ⟨rfl, rfl⟩ := Place.append_inj_of_offset same adjacent
  refine ⟨before, later, by simpa using split', rfl, ?_⟩
  rw [String.toList_append, Place.after_append, Place.after_append]

end Stands

end AuthSchema
