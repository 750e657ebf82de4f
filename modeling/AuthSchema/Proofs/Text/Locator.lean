import AuthSchema.Proofs.Text.LineTable
import AuthSchema.Text.Locator

/-!
A pointer that is moved about in a text answers as the table of line starts does.

* Wherever it was sent before, the pointer stands behind a piece of its text and counts on.
* Both give the position after the characters before an offset, and none where no cut is there.
* So an answer depends on the text and the request alone, and a refused request leaves no trace.
-/

namespace AuthSchema

open String (utf8Len)

/-- What can be asked about a text: the position of an offset, or the range between two offsets. -/
inductive PlaceRequest where
  /-- The position of a byte offset. -/
  | position (offset : Nat)
  /-- The range between two byte offsets. -/
  | range (start stop : Nat)
  deriving DecidableEq, Repr

/-- What is answered to a request. -/
inductive PlaceAnswer where
  /-- A position was asked for. -/
  | position (found : Position)
  /-- A range was asked for. -/
  | range (found : Range)
  deriving DecidableEq, Repr

/-- An offset between two characters of a text, or at one of its ends. -/
def IsBoundary (text : List Char) (offset : Nat) : Prop :=
  ∃ before rest, text = before ++ rest ∧ utf8Len before = offset

/-- A request about boundaries of a text, which are in order where there are two of them. -/
def PlaceRequest.IsWithin (text : List Char) : PlaceRequest → Prop
  | .position offset => IsBoundary text offset
  | .range start stop => start ≤ stop ∧ IsBoundary text start ∧ IsBoundary text stop

/-- The position after the characters that take a number of bytes, where there are such. -/
def positionAfter? (text : List Char) (bytes : Nat) : Option Position :=
  (splitBytes? text bytes).map fun cut => Position.origin.after cut.1

/-- The range between two such positions, where the offsets are in order. -/
def rangeBetween? (text : List Char) (start stop : Nat) : Option Range :=
  if start ≤ stop then do
    return ⟨← positionAfter? text start, ← positionAfter? text stop⟩
  else
    none

/-- What a request asks for, found by passing over the text. -/
def PlaceRequest.answerIn? (text : List Char) : PlaceRequest → Option PlaceAnswer
  | .position offset => (positionAfter? text offset).map .position
  | .range start stop => (rangeBetween? text start stop).map .range

section Cuts

variable {text : List Char} {offset : Nat}

/-- A cut behind a piece of text is a cut of what follows the piece. -/
theorem splitBytes?_append (before rest : List Char) (bytes : Nat) :
    splitBytes? (before ++ rest) (utf8Len before + bytes) =
      (splitBytes? rest bytes).map fun cut => (before ++ cut.1, cut.2) := by
  -- The induction is on the piece, whose characters are taken off before the cut is reached.
  induction before with
  | nil => simp
  | cons char before ih =>
    have positive := char.utf8Size_pos
    -- The first character fits before the cut, and leaves the bytes of the others.
    obtain ⟨count, total⟩ : ∃ count, utf8Len (char :: before) + bytes = count + 1 :=
      Nat.exists_eq_add_one_of_ne_zero (by rw [String.utf8Len_cons]; omega)
    rw [String.utf8Len_cons] at total
    have left : count + 1 - char.utf8Size = utf8Len before + bytes := by omega
    rw [String.utf8Len_cons, total, List.cons_append, splitBytes?, if_pos (by omega), left, ih,
      Option.map_map]
    rfl

/-- A position is found exactly at the boundaries of the text. -/
theorem exists_positionAfter?_iff :
    (∃ found, positionAfter? text offset = some found) ↔ IsBoundary text offset := by
  constructor
  · -- A position is found behind a cut, and a cut is at a boundary.
    intro looked
    obtain ⟨found, placed⟩ := looked
    obtain ⟨cut, split, -⟩ := Option.map_eq_some_iff.mp placed
    exact ⟨cut.1, cut.2, splitBytes?_eq_some_iff.mp split⟩
  · intro boundary
    obtain ⟨before, rest, split⟩ := boundary
    rw [positionAfter?, splitBytes?_eq_some_iff.mpr split]
    exact ⟨_, rfl⟩

/-- A range is found exactly between boundaries that are in order. -/
theorem exists_rangeBetween?_iff {start stop : Nat} :
    (∃ found, rangeBetween? text start stop = some found) ↔
      start ≤ stop ∧ IsBoundary text start ∧ IsBoundary text stop := by
  rw [← exists_positionAfter?_iff, ← exists_positionAfter?_iff, rangeBetween?]
  split
  · rename_i inOrder
    -- Both ends have to be found, one after the other.
    simp [inOrder, Option.bind_eq_some_iff]
  · -- Offsets that are out of order are refused on both sides.
    rename_i backward
    simp [backward]

/-- A request is refused exactly when it is not about boundaries that are in order. -/
theorem PlaceRequest.answerIn?_eq_none_iff (request : PlaceRequest) :
    request.answerIn? text = none ↔ ¬request.IsWithin text := by
  cases request with
  -- One boundary has to be there.
  | position offset =>
    rw [answerIn?, Option.map_eq_none_iff, IsWithin, ← exists_positionAfter?_iff, not_exists]
    exact Option.eq_none_iff_forall_ne_some
  -- Both boundaries have to be there, and in order.
  | range start stop =>
    rw [answerIn?, Option.map_eq_none_iff, IsWithin, ← exists_rangeBetween?_iff, not_exists]
    exact Option.eq_none_iff_forall_ne_some

end Cuts

namespace LineTable

/-- The table answers a request by the lines that start before its offsets. -/
def answer? (table : LineTable) : PlaceRequest → Option PlaceAnswer
  | .position offset => (table.position? offset).map .position
  | .range start stop => (table.range? start stop).map .range

/-- Looking a position up in the table is passing over the text before it. -/
theorem position?_eq (source : String) (offset : Nat) :
    (ofText source).position? offset = positionAfter? source.toList offset := by
  -- Either there is a cut at the offset, or there is none.
  rw [positionAfter?]
  cases cut : splitBytes? source.toList offset with
  | some pieces =>
    obtain ⟨split, rfl⟩ := splitBytes?_eq_some_iff.mp cut
    exact position?_of_split split
  | none =>
    -- A position of the table would cut the text at a line start, and the line at the offset.
    rw [Option.map_none, Option.eq_none_iff_forall_ne_some]
    intro found looked
    simp only [position?, Option.bind_eq_bind, Option.bind_eq_some_iff, Prod.exists] at looked
    obtain ⟨lineStart, last, lead, line, atLine, before, rest, inLine, -⟩ := looked
    have reached : lineStart ≤ offset := by
      simpa using List.mem_takeWhile_imp (List.mem_of_getLast? last)
    obtain ⟨split, rfl⟩ := splitBytes?_eq_some_iff.mp atLine
    have whole := splitBytes?_append lead line (offset - utf8Len lead)
    rw [← split, Nat.add_sub_cancel' reached, inLine] at whole
    -- Both cuts together are the one that does not exist.
    have same := cut.symm.trans whole
    cases same

/-- The table answers all requests as passing over the text does. -/
theorem answer?_eq (source : String) (request : PlaceRequest) :
    (ofText source).answer? request = request.answerIn? source.toList := by
  cases request with
  | position offset => rw [answer?, position?_eq, PlaceRequest.answerIn?]
  | range start stop =>
    rw [answer?, range?, position?_eq, position?_eq, PlaceRequest.answerIn?, rangeBetween?]

end LineTable

namespace Locator

/-- The answer to a request, and the pointer as the request leaves it. -/
def answer? (locator : Locator) : PlaceRequest → Option PlaceAnswer × Locator
  | .position offset =>
    let (found, moved) := locator.seek offset
    (found.map .position, moved)
  | .range start stop =>
    let (found, moved) := locator.seekRange start stop
    (found.map .range, moved)

/-- The answers to requests that are made one after another. -/
def answers (locator : Locator) : List PlaceRequest → List (Option PlaceAnswer)
  | [] => []
  | request :: later =>
    let (answer, moved) := locator.answer? request
    answer :: moved.answers later

/-- The pointer after requests that were made one after another. -/
def afterAll (locator : Locator) (requests : List PlaceRequest) : Locator :=
  requests.foldl (fun locator request => (locator.answer? request).2) locator

/-- A pointer into a text that stands where it counts its place to be. -/
structure StandsIn (text : List Char) (locator : Locator) : Prop where
  -- The pointer keeps the whole text, to start again from.
  text_eq : locator.text = text
  /-- What is not ahead of the pointer is what its place was counted over. -/
  passed : ∃ before, text = before ++ locator.ahead ∧ locator.place = Place.origin.after before

variable {text : List Char} {locator : Locator}

/-- A pointer at the start has passed over nothing. -/
theorem standsIn_atStart (text : List Char) : (atStart text).StandsIn text :=
  ⟨rfl, [], rfl, rfl⟩

/-- Restarting leaves a pointer that stands in its text and not behind the offset. -/
theorem StandsIn.restart (stands : locator.StandsIn text) (offset : Nat) :
    (locator.restart offset).StandsIn text ∧ (locator.restart offset).place.offset ≤ offset := by
  unfold Locator.restart
  split
  · -- An offset that lies behind is counted from the start of the text.
    rw [stands.text_eq]
    exact ⟨standsIn_atStart text, Nat.zero_le offset⟩
  · rename_i ahead
    exact ⟨stands, Nat.le_of_not_lt ahead⟩

/-- One move: the position after the text before the offset, and a pointer that stands there. -/
theorem StandsIn.seek (stands : locator.StandsIn text) (offset : Nat) :
    (locator.seek offset).1 = positionAfter? text offset ∧
      (locator.seek offset).2.StandsIn text := by
  -- The pointer is at the start of the text or where it was before, and not behind the offset.
  obtain ⟨restarted, reached⟩ := stands.restart offset
  unfold Locator.seek
  dsimp only
  generalize locator.restart offset = base at restarted reached ⊢
  obtain ⟨text_eq, before, split, place_eq⟩ := restarted
  have bytes : base.place.offset = utf8Len before := by rw [place_eq, Place.offset_after_origin]
  -- What is left to pass over is cut where the whole text is.
  have whole := splitBytes?_append before base.ahead (offset - utf8Len before)
  rw [← split, Nat.add_sub_cancel' (bytes ▸ reached)] at whole
  rw [positionAfter?, whole, bytes]
  cases splitBytes?_eq : splitBytes? base.ahead (offset - utf8Len before) with
  | none =>
    -- Without a cut, the pointer stays where it counted from.
    exact ⟨rfl, text_eq, before, split, place_eq⟩
  | some cut =>
    -- With a cut, the pointer has passed over the piece before it as well.
    obtain ⟨ahead_eq, -⟩ := splitBytes?_eq_some_iff.mp splitBytes?_eq
    have place_after : base.place.after cut.1 = Place.origin.after (before ++ cut.1) := by
      rw [place_eq, Place.after_append]
    refine ⟨?_, text_eq, before ++ cut.1, ?_, place_after⟩
    · show some (base.place.after cut.1).position = _
      rw [place_after, Place.position_after]
      rfl
    · rw [split, ahead_eq, List.append_assoc]

/-- Two moves: the range between both positions, unless one of them is not to be had. -/
theorem StandsIn.seekRange (stands : locator.StandsIn text) (start stop : Nat) :
    (locator.seekRange start stop).1 = rangeBetween? text start stop ∧
      (locator.seekRange start stop).2.StandsIn text := by
  unfold Locator.seekRange rangeBetween?
  by_cases inOrder : start ≤ stop
  · rw [if_neg (Nat.not_lt.mpr inOrder), if_pos inOrder]
    -- The second move starts where the first one left the pointer, or is not made at all.
    obtain ⟨first, atFirst⟩ := stands.seek start
    rw [← first]
    generalize locator.seek start = outcome at atFirst ⊢
    obtain ⟨found, moved⟩ := outcome
    cases found with
    -- A range without a start is refused, and the pointer stays where the start was looked for.
    | none => exact ⟨rfl, atFirst⟩
    | some position =>
      obtain ⟨last, atLast⟩ := atFirst.seek stop
      rw [← last]
      refine ⟨?_, atLast⟩
      dsimp only
      cases (moved.seek stop).1 <;> rfl
  · -- Offsets that are out of order are refused before the pointer is moved.
    rw [if_pos (Nat.lt_of_not_le inOrder), if_neg inOrder]
    exact ⟨rfl, stands⟩

/-- One request: the answer is told by the text, and the pointer stands in it afterwards. -/
theorem StandsIn.answer? (stands : locator.StandsIn text) (request : PlaceRequest) :
    (locator.answer? request).1 = request.answerIn? text ∧
      (locator.answer? request).2.StandsIn text := by
  -- Both kinds of requests are told by the text and leave the pointer in it.
  cases request with
  | position offset =>
    obtain ⟨found, moved⟩ := stands.seek offset
    exact ⟨congrArg (Option.map PlaceAnswer.position) found, moved⟩
  | range start stop =>
    obtain ⟨found, moved⟩ := stands.seekRange start stop
    exact ⟨congrArg (Option.map PlaceAnswer.range) found, moved⟩

/-- Any number of requests leave a pointer that stands in its text. -/
theorem StandsIn.afterAll (stands : locator.StandsIn text) (requests : List PlaceRequest) :
    (locator.afterAll requests).StandsIn text := by
  -- Each request finds a pointer that stands in the text, and leaves one.
  induction requests generalizing locator with
  | nil => exact stands
  | cons request later ih => exact ih (stands.answer? request).2

/-- Any number of requests are answered one by one from the text. -/
theorem StandsIn.answers (stands : locator.StandsIn text) (requests : List PlaceRequest) :
    locator.answers requests = requests.map (PlaceRequest.answerIn? text) := by
  induction requests generalizing locator with
  | nil => rfl
  | cons request later ih =>
    -- The first answer is told by the text, and so are the others, since the pointer stands in it.
    obtain ⟨answered, moved⟩ := stands.answer? request
    show (locator.answer? request).1 :: (locator.answer? request).2.answers later = _
    rw [List.map_cons, answered, ih moved]

end Locator

/--
A pointer answers all requests as the table of line starts does, whatever was asked before.

* A request is refused exactly when it is not about boundaries of the text that are in order.
* After any request, also a refused one, all later ones are answered as if it had not been made.
-/
theorem Locator.answers_eq_lineTable (source : String) :
    (∀ requests, (Locator.ofText source).answers requests =
      requests.map (LineTable.ofText source).answer?) ∧
    (∀ request, (LineTable.ofText source).answer? request = none ↔
      ¬request.IsWithin source.toList) ∧
    ∀ earlier request later,
      (((Locator.ofText source).afterAll earlier).answer? request).2.answers later =
        ((Locator.ofText source).afterAll earlier).answers later := by
  -- All follows from the pointer standing in its text, which no request changes.
  have stands : (Locator.ofText source).StandsIn source.toList :=
    Locator.standsIn_atStart source.toList
  refine ⟨?_, ?_, ?_⟩
  · intro requests
    rw [stands.answers requests]
    exact (List.map_congr_left fun request _ => LineTable.answer?_eq source request).symm
  · intro request
    rw [LineTable.answer?_eq]
    exact request.answerIn?_eq_none_iff
  · intro earlier request later
    -- Both pointers stand in the text, and that is all that later answers depend on.
    have before := stands.afterAll earlier
    rw [(before.answer? request).2.answers later, before.answers later]

/-- Two lines, the first of which holds a character of two bytes. -/
def twoByteLine : String :=
  "é\nab"

/-- The pointer is asked inside a character after it has gone ahead, which makes it start again. -/
theorem Locator.answers_eq_lineTable_twoByteLine :
    (((Locator.ofText twoByteLine).afterAll [.position 4]).answer? (.range 0 1)).1 = none ∧
      (((Locator.ofText twoByteLine).afterAll [.position 4]).answer? (.range 0 1)).2.answers
          [.range 2 5, .position 9, .position 3] =
        ((Locator.ofText twoByteLine).afterAll [.position 4]).answers
          [.range 2 5, .position 9, .position 3] ∧
      (Locator.ofText twoByteLine).answers [.position 4, .range 0 1, .range 2 5, .position 9] =
        [some (.position ⟨2, 2⟩), none, some (.range ⟨⟨1, 2⟩, ⟨2, 3⟩⟩), none] := by
  obtain ⟨agrees, _, traceless⟩ := Locator.answers_eq_lineTable twoByteLine
  refine ⟨by decide +kernel, traceless [.position 4] (.range 0 1) _, ?_⟩
  rw [agrees]
  decide +kernel

end AuthSchema
